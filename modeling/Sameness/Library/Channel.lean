import Sameness.Library.Framing
import Sameness.Library.Runs

/-!
# A writer and a reader joined by a stream

A `Channel` is a writer that takes inputs and appends symbols to a stream, and a reader that
takes symbols from its front. Their steps interleave freely, and `next` lets a read take any
number of symbols.

`exists_taken` is the conservation of symbols: what has been written is what the reads have
taken, each the encoding of some frame, followed by what is on its way. Where the frames are lists
of symbols these are any reads (`framed_univ`). The writer writes frames
too: `Writes` says that what it appends is the encoding of the frames by which its `log` grows.
Where every read takes one of these, `exists_carries` splits the log at any time into the frames
read and those on their way: nothing is lost, repeated, reordered or made up; where a read takes
several, `Taken.exists_append` splits it in the same way. `Carries.of_stream_nil` is the case
where nothing is on its way, `Carries.drain` says that this can be reached from everywhere, and
`reader_eq_of_inputs_eq` that what the reader then has does not depend on the interleaving.
-/

/-- The writer's step, with the symbols that it appends, and the reader's. -/
structure Channel (ι σ τ β : Type*) where
  write : ι → σ → List β × σ
  read : List β → τ → τ

namespace Channel

open Runs

/-- The two ends and what is on its way. -/
structure State (σ τ β : Type*) where
  writer : σ
  stream : List β
  reader : τ

inductive Action (ι : Type*) where
  | write (i : ι)
  | read (n : ℕ)

variable {ι σ τ β α : Type*} (C : Channel ι σ τ β)

/-- One step of either end. -/
def next : Action ι → State σ τ β → State σ τ β
  | .write i, w => ⟨(C.write i w.writer).2, w.stream ++ (C.write i w.writer).1, w.reader⟩
  | .read n, w => ⟨w.writer, w.stream.drop n, C.read (w.stream.take n) w.reader⟩

/-- The state after some steps. -/
def after (acts : List (Action ι)) (w : State σ τ β) : State σ τ β :=
  final (fun act w => ((), C.next act w)) acts w

/-- The state after some steps, from an empty stream. -/
def run (s : σ) (t : τ) (acts : List (Action ι)) : State σ τ β := C.after acts ⟨s, [], t⟩

/-- The writer's inputs. -/
def inputs (acts : List (Action ι)) : List ι :=
  acts.filterMap fun
    | .write i => some i
    | .read _ => none

/-- The writer does not notice the reads. -/
theorem writer_after (acts : List (Action ι)) (w : State σ τ β) :
    (C.after acts w).writer = final C.write (inputs acts) w.writer := by
  induction acts generalizing w with
  | nil => rfl
  | cons act acts ih =>
    rcases act with i | n
    · exact ih _
    · exact ih _

theorem after_append (acts acts' : List (Action ι)) (w : State σ τ β) :
    C.after (acts ++ acts') w = C.after acts' (C.after acts w) := final_append _ acts acts' w

theorem writer_run (s : σ) (t : τ) (acts : List (Action ι)) :
    (C.run s t acts).writer = final C.write (inputs acts) s :=
  C.writer_after acts _

/-! ### Reads by frames -/

section Frames

variable (valid : Set α) (encode : α → List β)

/-- A read takes the encoding of one valid frame. -/
def OneFrame : Action ι → State σ τ β → Prop
  | .write _, _ => True
  | .read n, w => ∃ a ∈ valid, w.stream.take n = encode a

/-- Every read of a run takes one frame. -/
def Framed : List (Action ι) → State σ τ β → Prop
  | [], _ => True
  | act :: acts, w => OneFrame valid encode act w ∧ Framed acts (C.next act w)

/-- What the reader makes of frames. -/
def readAll (t : τ) (done : List α) : τ := done.foldl (fun t a => C.read (encode a) t) t

/-- What the writer appends is that by which its record grows. -/
def Appends (sent : σ → List β) : Prop :=
  ∀ i s, sent (C.write i s).2 = sent s ++ (C.write i s).1

variable {C valid encode}

theorem readAll_concat (t : τ) (done : List α) (a : α) :
    C.readAll encode t (done ++ [a]) = C.read (encode a) (C.readAll encode t done) := by
  rw [readAll, List.foldl_append]
  rfl

/-- Any read takes a list of symbols. -/
theorem framed_univ (acts : List (Action ι)) (w : State σ τ β) :
    C.Framed Set.univ id acts w := by
  induction acts generalizing w with
  | nil => trivial
  | cons act acts ih =>
    refine ⟨?_, ih _⟩
    rcases act with i | n
    · trivial
    · exact ⟨_, Set.mem_univ _, rfl⟩

theorem framed_append_iff {acts acts' : List (Action ι)} {w : State σ τ β} :
    C.Framed valid encode (acts ++ acts') w ↔
      C.Framed valid encode acts w ∧
        C.Framed valid encode acts' (C.after acts w) := by
  induction acts generalizing w with
  | nil => exact (and_iff_right trivial).symm
  | cons act acts ih => exact (and_congr_right fun _ => ih).trans and_assoc.symm

/-- The writer's record is what the reader has taken, followed by what is on its way. -/
structure Taken (C : Channel ι σ τ β) (valid : Set α) (encode : α → List β) (sent : σ → List β)
    (t : τ) (done : List α) (w : State σ τ β) : Prop where
  mem_valid : ∀ a ∈ done, a ∈ valid
  sent_eq : sent w.writer = done.flatMap encode ++ w.stream
  reader_eq : w.reader = C.readAll encode t done

variable {sent : σ → List β} {t : τ} {done : List α} {w : State σ τ β}

theorem Taken.write (hC : C.Appends sent) (h : Taken C valid encode sent t done w) (i : ι) :
    Taken C valid encode sent t done (C.next (.write i) w) := by
  refine ⟨h.mem_valid, ?_, h.reader_eq⟩
  change sent (C.write i w.writer).2 = _ ++ (w.stream ++ (C.write i w.writer).1)
  rw [hC, h.sent_eq, List.append_assoc]

theorem Taken.read (h : Taken C valid encode sent t done w) {n : ℕ} {a : α} (ha : a ∈ valid)
    (htake : w.stream.take n = encode a) :
    Taken C valid encode sent t (done ++ [a]) (C.next (.read n) w) := by
  refine ⟨List.forall_mem_append.mpr ⟨h.mem_valid, List.forall_mem_singleton.mpr ha⟩, ?_, ?_⟩
  · change sent w.writer = _ ++ w.stream.drop n
    rw [List.flatMap_append, List.flatMap_singleton, List.append_assoc, ← htake,
      List.take_append_drop, h.sent_eq]
  · change C.read (w.stream.take n) w.reader = _
    rw [htake, h.reader_eq, readAll_concat]

private theorem Taken.after (hC : C.Appends sent) (h : Taken C valid encode sent t done w)
    {acts : List (Action ι)} (hacts : C.Framed valid encode acts w) :
    ∃ more, Taken C valid encode sent t (done ++ more) (C.after acts w) ∧
      more.length + (inputs acts).length = acts.length := by
  induction acts generalizing done w with
  | nil => exact ⟨[], by rwa [List.append_nil], rfl⟩
  | cons act acts ih =>
    obtain ⟨hact, hrest⟩ := hacts
    rcases act with i | n
    · obtain ⟨more, htaken, hlen⟩ := ih (h.write hC i) hrest
      exact ⟨more, htaken, congrArg (· + 1) hlen⟩
    · -- the frame of this read comes before those of the rest
      obtain ⟨a, ha, htake⟩ := hact
      obtain ⟨more, htaken, hlen⟩ := ih (h.read ha htake) hrest
      rw [List.append_assoc] at htaken
      refine ⟨a :: more, htaken, ?_⟩
      change more.length + 1 + (inputs acts).length = acts.length + 1
      omega

/-- **Nothing is lost.** After any interleaving the writer's record is the frames that the reads
have taken, one for a read, followed by what is on its way. -/
theorem exists_taken (hC : C.Appends sent) {s : σ} (hs : sent s = []) {acts : List (Action ι)}
    (hacts : C.Framed valid encode acts ⟨s, [], t⟩) :
    ∃ done, Taken C valid encode sent t done (C.run s t acts) ∧
      done.length + (inputs acts).length = acts.length := by
  have hstart : Taken C valid encode sent t [] ⟨s, [], t⟩ := ⟨nofun, hs, rfl⟩
  exact hstart.after hC hacts

end Frames

/-! ### Writes by frames -/

section Log

variable (valid : Set α) (encode : α → List β) (log : σ → List α)

/-- What the writer appends is the encoding of the valid frames by which its log grows. -/
def Writes : Prop :=
  ∀ i s, ∃ new, (∀ a ∈ new, a ∈ valid) ∧ log (C.write i s).2 = log s ++ new ∧
    (C.write i s).1 = new.flatMap encode

variable {C valid encode log}

theorem Writes.appends (hC : C.Writes valid encode log) :
    C.Appends fun s => (log s).flatMap encode := by
  intro i s
  obtain ⟨new, -, hlog, hout⟩ := hC i s
  change (log (C.write i s).2).flatMap encode = (log s).flatMap encode ++ (C.write i s).1
  rw [hlog, hout, List.flatMap_append]

theorem Writes.mem_valid (hC : C.Writes valid encode log) {s : σ} (hs : ∀ a ∈ log s, a ∈ valid)
    (is : List ι) : ∀ a ∈ log (final C.write is s), a ∈ valid := by
  induction is generalizing s with
  | nil => exact hs
  | cons i is ih =>
    refine ih ?_
    obtain ⟨new, hnew, hlog, -⟩ := hC i s
    rw [hlog]
    exact List.forall_mem_append.mpr ⟨hs, hnew⟩

/-- **Whole frames.** If the frames of the reads are made of those of the writes, then the log is
that of which they are made, followed by what is on its way. -/
theorem Taken.exists_append (S : SelfDelimiting valid encode) (hC : C.Writes valid encode log)
    {s : σ} (hs : log s = []) {t : τ} {acts : List (Action ι)} {γ : Type*} {valid' : Set γ}
    {encode' : γ → List β} {done : List γ} {parts : List α} (hparts : ∀ a ∈ parts, a ∈ valid)
    (hencode : done.flatMap encode' = parts.flatMap encode)
    (h : Taken C valid' encode' (fun s => (log s).flatMap encode) t done (C.run s t acts)) :
    ∃ pending, log (C.run s t acts).writer = parts ++ pending ∧
      (∀ a ∈ parts ++ pending, a ∈ valid) ∧
      (C.run s t acts).stream = pending.flatMap encode := by
  have hvalid : ∀ a ∈ log (C.run s t acts).writer, a ∈ valid := by
    rw [writer_run]
    exact hC.mem_valid (hs ▸ fun _ ha => absurd ha List.not_mem_nil) _
  have hsent : (log (C.run s t acts).writer).flatMap encode =
      parts.flatMap encode ++ (C.run s t acts).stream := h.sent_eq.trans (by rw [hencode])
  obtain ⟨pending, hlog, hstream⟩ := S.exists_append hparts hvalid hsent
  exact ⟨pending, hlog, hlog ▸ hvalid, hstream⟩

/-- The log is what the reader has read, followed by what is on its way. -/
structure Carries (C : Channel ι σ τ β) (valid : Set α) (encode : α → List β) (log : σ → List α)
    (t : τ) (done pending : List α) (w : State σ τ β) : Prop where
  log_eq : log w.writer = done ++ pending
  mem_valid : ∀ a ∈ done ++ pending, a ∈ valid
  stream_eq : w.stream = pending.flatMap encode
  reader_eq : w.reader = C.readAll encode t done

variable {t : τ} {done pending : List α} {w : State σ τ β}

/-- **Frame by frame.** After any interleaving whose reads take one written frame each, the log is
what has been read followed by what is on its way. -/
theorem exists_carries (S : SelfDelimiting valid encode) (hC : C.Writes valid encode log) {s : σ}
    (hs : log s = []) {acts : List (Action ι)} (hacts : C.Framed valid encode acts ⟨s, [], t⟩) :
    ∃ done pending, Carries C valid encode log t done pending (C.run s t acts) := by
  have hsent : (log s).flatMap encode = [] := by rw [hs, List.flatMap_nil]
  obtain ⟨done, htaken, -⟩ := exists_taken hC.appends hsent hacts
  obtain ⟨pending, hlog, hvalid, hstream⟩ :=
    htaken.exists_append S hC hs htaken.mem_valid rfl
  exact ⟨done, pending, hlog, hvalid, hstream, htaken.reader_eq⟩

/-- Where nothing is on its way, the reader has read the log. -/
theorem Carries.of_stream_nil (S : SelfDelimiting valid encode)
    (h : Carries C valid encode log t done pending w) (hstream : w.stream = []) :
    pending = [] ∧ w.reader = C.readAll encode t (log w.writer) := by
  have hpending : pending = [] := by
    have hnil := h.stream_eq.symm.trans hstream
    rcases pending with _ | ⟨a, rest⟩
    · rfl
    · rw [List.flatMap_cons] at hnil
      exact absurd (List.append_eq_nil_iff.mp hnil).1
        (S.encode_ne_nil (h.mem_valid a (List.mem_append_right done List.mem_cons_self)))
  refine ⟨hpending, ?_⟩
  rw [h.reader_eq, h.log_eq, hpending, List.append_nil]

/-- **What is on its way arrives** when it is read frame by frame. -/
theorem Carries.drain (h : Carries C valid encode log t done pending w) :
    C.Framed valid encode (pending.map fun a => .read (encode a).length) w ∧
      C.after (pending.map fun a => .read (encode a).length) w =
        ⟨w.writer, [], C.readAll encode t (log w.writer)⟩ := by
  induction pending generalizing done w with
  | nil =>
    have hstream : w.stream = [] := h.stream_eq
    have hlog : log w.writer = done := h.log_eq.trans (List.append_nil done)
    refine ⟨trivial, ?_⟩
    calc w = ⟨w.writer, w.stream, w.reader⟩ := rfl
      _ = _ := by rw [hstream, h.reader_eq, hlog]
  | cons a rest ih =>
    have ha : a ∈ valid := h.mem_valid a (List.mem_append_right done List.mem_cons_self)
    have htake : w.stream.take (encode a).length = encode a := by
      rw [h.stream_eq, List.flatMap_cons, List.take_left]
    have hnext : Carries C valid encode log t (done ++ [a]) rest
        (C.next (.read (encode a).length) w) := by
      refine ⟨?_, ?_, ?_, ?_⟩
      · rw [List.append_assoc, List.singleton_append]
        exact h.log_eq
      · rw [List.append_assoc, List.singleton_append]
        exact h.mem_valid
      · change w.stream.drop (encode a).length = _
        rw [h.stream_eq, List.flatMap_cons, List.drop_left]
      · change C.read (w.stream.take _) w.reader = _
        rw [htake, h.reader_eq, readAll_concat]
    obtain ⟨hframed, hfinal⟩ := ih hnext
    exact ⟨⟨⟨a, ha, htake⟩, hframed⟩, hfinal⟩

/-- **The interleaving does not matter.** Two runs with the same inputs, in which everything
has arrived, leave the reader with the same. -/
theorem reader_eq_of_inputs_eq (S : SelfDelimiting valid encode) (hC : C.Writes valid encode log)
    {s : σ} (hs : log s = []) {acts acts' : List (Action ι)}
    (hacts : C.Framed valid encode acts ⟨s, [], t⟩)
    (hacts' : C.Framed valid encode acts' ⟨s, [], t⟩)
    (hinputs : inputs acts = inputs acts') (hstream : (C.run s t acts).stream = [])
    (hstream' : (C.run s t acts').stream = []) :
    (C.run s t acts).reader = (C.run s t acts').reader := by
  obtain ⟨done, pending, h⟩ := exists_carries S hC hs hacts
  obtain ⟨done', pending', h'⟩ := exists_carries S hC hs hacts'
  rw [(h.of_stream_nil S hstream).2, (h'.of_stream_nil S hstream').2, writer_run, writer_run,
    hinputs]

end Log

end Channel
