import Mathlib.Data.List.Basic
import Mathlib.Data.Set.Defs
import Mathlib.Order.Basic

/-!
# Frames in a stream

A writer concatenates the encodings of frames into a stream; the transport cuts the stream
into chunks, at any places. A `Framing` describes a reader that makes at most one frame out
of each chunk, and that never makes a frame out of less than its encoding.

Such a reader loses frames as soon as one cut is not a frame boundary. The argument is a
count: the encodings of the frames read are together no longer than the chunks they were
read from (`length_stream_accepted_le`), so a reader that returns every frame of the stream
has no symbol to spare, in any chunk (`eq_map_encode`), nor a chunk that it did not read
(`accepted_eq_iff`).

What such a reader loses is in the stream all the same if the encoding says where it ends:
`SelfDelimiting` is a decoder that finds the first frame whatever follows, and a stream of such
frames has one reading (`SelfDelimiting.flatMap_inj`).
-/

/-- A frame format and a reader of single chunks: a chunk that is read as `a` is at least as
long as the encoding of `a`, and equal to it when it is no longer. -/
structure Framing (α β : Type*) where
  encode : α → List β
  accept : List β → Option α
  length_encode_le : ∀ {c a}, accept c = some a → (encode a).length ≤ c.length
  encode_eq : ∀ {c a}, accept c = some a → c.length ≤ (encode a).length → encode a = c

namespace Framing

variable {α β : Type*} (F : Framing α β)

/-- What the writer emits. -/
def stream (frames : List α) : List β := frames.flatMap F.encode

/-- What the reader makes out of the chunks. -/
def accepted (cs : List (List β)) : List α := cs.filterMap F.accept

theorem accepted_cons_none {c : List β} (h : F.accept c = none) (cs : List (List β)) :
    F.accepted (c :: cs) = F.accepted cs := List.filterMap_cons_none h

theorem accepted_cons_some {c : List β} {a : α} (h : F.accept c = some a) (cs : List (List β)) :
    F.accepted (c :: cs) = a :: F.accepted cs := List.filterMap_cons_some h

theorem length_stream_cons (a : α) (frames : List α) :
    (F.stream (a :: frames)).length = (F.encode a).length + (F.stream frames).length := by
  rw [stream, List.flatMap_cons, List.length_append, stream]

/-- The frames read are no longer than what was read. -/
theorem length_stream_accepted_le (cs : List (List β)) :
    (F.stream (F.accepted cs)).length ≤ cs.flatten.length := by
  induction cs with
  | nil => exact Nat.le_refl _
  | cons c cs ih =>
    rw [List.flatten_cons, List.length_append]
    rcases h : F.accept c with _ | a
    · rw [F.accepted_cons_none h]
      exact Nat.le_trans ih (Nat.le_add_left _ _)
    · rw [F.accepted_cons_some h, length_stream_cons]
      exact Nat.add_le_add (F.length_encode_le h) ih

/-- Where the frames read are as long as what was read, every chunk is one frame. -/
theorem eq_map_encode {cs : List (List β)} (hne : ∀ c ∈ cs, c ≠ [])
    (hlen : cs.flatten.length ≤ (F.stream (F.accepted cs)).length) :
    cs = (F.accepted cs).map F.encode := by
  induction cs with
  | nil => rfl
  | cons c cs ih =>
    obtain ⟨hc, hcs⟩ := List.forall_mem_cons.mp hne
    have hrest := F.length_stream_accepted_le cs
    rw [List.flatten_cons, List.length_append] at hlen
    rcases h : F.accept c with _ | a
    · -- a chunk without a frame leaves symbols over
      have hpos : 0 < c.length := List.length_pos_of_ne_nil hc
      rw [F.accepted_cons_none h] at hlen
      omega
    · have hle := F.length_encode_le h
      rw [F.accepted_cons_some h, length_stream_cons] at hlen
      rw [F.accepted_cons_some h, List.map_cons, F.encode_eq h (by omega), ← ih hcs (by omega)]

/-- **When no frame is lost.** A reader that stops after some of the chunks of a stream has
returned the frames of the stream exactly if it has read every chunk and the stream was cut
at the frame boundaries. -/
theorem accepted_eq_iff {frames : List α} (haccept : ∀ a ∈ frames, F.accept (F.encode a) = some a)
    {cs seen : List (List β)} (hseen : seen <+: cs) (hne : ∀ c ∈ cs, c ≠ [])
    (hcs : cs.flatten = F.stream frames) :
    F.accepted seen = frames ↔ seen = cs ∧ cs = frames.map F.encode := by
  constructor
  · intro hread
    obtain ⟨rest, rfl⟩ := hseen
    have hle : (seen ++ rest).flatten.length ≤ (F.stream (F.accepted seen)).length :=
      Nat.le_of_eq (by rw [hread, hcs])
    rw [List.flatten_append, List.length_append] at hle
    have hrest : rest = [] := by
      -- a chunk that was not read would be too much
      have hshort := F.length_stream_accepted_le seen
      refine List.eq_nil_iff_forall_not_mem.mpr fun c hc => ?_
      have hpos := List.length_pos_of_ne_nil (hne c (List.mem_append_right seen hc))
      have hmem := (List.sublist_flatten_of_mem hc).length_le
      omega
    subst hrest
    rw [List.append_nil] at hne ⊢
    exact ⟨rfl, hread ▸ F.eq_map_encode hne (by omega)⟩
  · rintro ⟨rfl, rfl⟩
    rw [accepted, List.filterMap_map]
    exact (List.filterMap_congr haccept).trans List.filterMap_some

end Framing

/-- A decoder of the first frame of a stream: what follows the frame does not matter. -/
structure SelfDelimiting {α β : Type*} (valid : Set α) (encode : α → List β) where
  first : List β → α
  first_append : ∀ {a}, a ∈ valid → ∀ rest, first (encode a ++ rest) = a
  encode_ne_nil : ∀ {a}, a ∈ valid → encode a ≠ []

namespace SelfDelimiting

variable {α β : Type*} {valid : Set α} {encode : α → List β} (S : SelfDelimiting valid encode)
include S

/-- A decoder of some frames is one of fewer. -/
def mono {valid' : Set α} (h : ∀ a ∈ valid', a ∈ valid) : SelfDelimiting valid' encode where
  first := S.first
  first_append ha rest := S.first_append (h _ ha) rest
  encode_ne_nil ha := S.encode_ne_nil (h _ ha)

/-- The first frame of a stream, and so what follows it, is determined. -/
theorem append_inj {a b : α} (ha : a ∈ valid) (hb : b ∈ valid) {s t : List β}
    (h : encode a ++ s = encode b ++ t) : a = b ∧ s = t := by
  have hab : a = b := by rw [← S.first_append ha s, h, S.first_append hb t]
  subst hab
  exact ⟨rfl, List.append_cancel_left h⟩

/-- No encoding starts another. -/
theorem eq_of_prefix {a b : α} (ha : a ∈ valid) (hb : b ∈ valid) (h : encode a <+: encode b) :
    a = b := by
  obtain ⟨rest, hrest⟩ := h
  have happ : encode a ++ rest = encode b ++ [] := by rw [hrest, List.append_nil]
  exact (S.append_inj ha hb happ).1

/-- **One reading.** A stream determines its frames. -/
theorem flatMap_inj {as bs : List α} (has : ∀ a ∈ as, a ∈ valid) (hbs : ∀ b ∈ bs, b ∈ valid)
    (h : as.flatMap encode = bs.flatMap encode) : as = bs := by
  induction as generalizing bs with
  | nil =>
    rcases bs with _ | ⟨b, bs⟩
    · rfl
    · rw [List.flatMap_nil, List.flatMap_cons] at h
      exact absurd (List.append_eq_nil_iff.mp h.symm).1 (S.encode_ne_nil (hbs b List.mem_cons_self))
  | cons a as ih =>
    obtain ⟨ha, has⟩ := List.forall_mem_cons.mp has
    rcases bs with _ | ⟨b, bs⟩
    · rw [List.flatMap_nil, List.flatMap_cons] at h
      exact absurd (List.append_eq_nil_iff.mp h).1 (S.encode_ne_nil ha)
    · obtain ⟨hb, hbs'⟩ := List.forall_mem_cons.mp hbs
      rw [List.flatMap_cons, List.flatMap_cons] at h
      obtain ⟨hab, hrest⟩ := S.append_inj ha hb h
      rw [hab, ih has hbs' hrest]

/-- Frames at the front of a stream are its first frames. -/
theorem exists_append {as bs : List α} (has : ∀ a ∈ as, a ∈ valid) (hbs : ∀ b ∈ bs, b ∈ valid)
    {rest : List β} (h : bs.flatMap encode = as.flatMap encode ++ rest) :
    ∃ cs, bs = as ++ cs ∧ rest = cs.flatMap encode := by
  induction as generalizing bs with
  | nil => exact ⟨bs, rfl, h.symm⟩
  | cons a as ih =>
    obtain ⟨ha, has'⟩ := List.forall_mem_cons.mp has
    rw [List.flatMap_cons, List.append_assoc] at h
    rcases bs with _ | ⟨b, bs⟩
    · rw [List.flatMap_nil] at h
      exact absurd (List.append_eq_nil_iff.mp h.symm).1 (S.encode_ne_nil ha)
    · obtain ⟨hb, hbs'⟩ := List.forall_mem_cons.mp hbs
      rw [List.flatMap_cons] at h
      obtain ⟨rfl, hrest⟩ := S.append_inj hb ha h
      obtain ⟨cs, rfl, hcs⟩ := ih has' hbs' hrest
      exact ⟨cs, rfl, hcs⟩

end SelfDelimiting
