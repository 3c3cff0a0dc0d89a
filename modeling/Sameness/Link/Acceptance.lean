import Sameness.Link.MacOSButtons
import Sameness.Link.WindowsButtons

/-!
# What the three platforms accept

The platforms check the size of a payload against bounds of their own (`Platform.minPayload`).
The bounds for a key are 2 and 4, those for a button 4, 6 and 9, and a packet between them is
posted on one platform and refused on another; a mouse move has the bound 8 everywhere, but
Windows also needs coordinates that it can convert. `unanimous_iff` is the condition under which
the three do the same, which every packet of the client meets as far as sizes go.
-/

namespace Sameness

open Bytes Cpp Eff

namespace Platform

variable {o : ByteOrder} {P : Platform} {h : Handler} {pkt : EventPacket} {d : Desktop}

/-- The injector posts events for the packet, and returns. -/
def Posts (o : ByteOrder) (P : Platform) (h : Handler) (pkt : EventPacket) (d : Desktop) : Prop :=
  ∃ evs, evs ≠ [] ∧ exec (P.inject o h pkt) d = (.ok (), P.posted evs d)

/-- The injector refuses the packet as too short, and leaves the desktop alone. -/
def Refuses (o : ByteOrder) (P : Platform) (h : Handler) (pkt : EventPacket) (d : Desktop) :
    Prop :=
  exec (P.inject o h pkt) d = (P.refusal h, d)

/-- A payload that is long enough is for at least one event. -/
theorem events_ne_nil {evs : List OsEvent} (hev : P.events o h pkt = .ok evs) : evs ≠ [] := by
  rintro rfl
  cases P with
  | windows os =>
    cases h with
    | injectMouseMove =>
      obtain ⟨dx, -, hev⟩ := bind_eq_ok hev
      obtain ⟨dy, -, hev⟩ := bind_eq_ok hev
      cases hev
    | _ => cases hev
  | macOS os | uiohook => cases h <;> cases hev

/-- A conversion that fails is no refusal. -/
theorem events_ne_refusal {stop : Stop ServerException} (hev : P.events o h pkt = .error stop) :
    .error stop ≠ P.refusal h := by
  rw [events_eq_error hev]
  cases P <;> cases h <;> exact nofun

/-- Offering events leaves a trace on the desktop. -/
theorem offer_ne_refusal {evs : List OsEvent} (hne : evs ≠ []) :
    P.offer h evs d ≠ (P.refusal h, d) := by
  intro hoffer
  have hdesktop := congrArg Prod.snd hoffer
  cases P with
  | macOS os =>
    have hcalls := congrArg Desktop.calls hdesktop
    rw [offer] at hcalls
    split_ifs at hcalls <;> exact Nat.succ_ne_self _ hcalls
  | windows os => exact Nat.succ_ne_self _ (congrArg Desktop.calls hdesktop)
  | uiohook =>
    have hposted := congrArg Desktop.posted hdesktop
    rw [offer] at hposted
    exact hne (List.map_eq_nil_iff.mp (List.append_right_eq_self.mp hposted))

/-- **When a packet is refused.** -/
theorem refuses_iff : P.Refuses o h pkt d ↔ pkt.payload.length < P.minPayload h := by
  constructor
  · intro hrefuses
    by_contra hlen
    rw [Refuses, exec_inject, if_neg hlen] at hrefuses
    cases hev : P.events o h pkt with
    | error stop =>
      rw [hev] at hrefuses
      exact events_ne_refusal hev (congrArg Prod.fst hrefuses)
    | ok evs =>
      rw [hev] at hrefuses
      exact offer_ne_refusal (events_ne_nil hev) hrefuses
  · exact exec_inject_of_short

/-- Posting events leaves them on the desktop. -/
private theorem posted_ne_self {evs : List OsEvent} (hne : evs ≠ []) : P.posted evs d ≠ d := by
  intro hposted
  have hlist := congrArg Desktop.posted hposted
  cases P <;> exact hne (List.map_eq_nil_iff.mp (List.append_right_eq_self.mp hlist))

/-- **When a packet is posted.** -/
theorem posts_iff (ht : P.Takes d.calls h) :
    P.Posts o h pkt d ↔ P.minPayload h ≤ pkt.payload.length ∧ P.Fits o h pkt := by
  constructor
  · rintro ⟨evs, hne, hexec⟩
    rcases Nat.lt_or_ge pkt.payload.length (P.minPayload h) with hlen | hlen
    · rw [exec_inject_of_short hlen] at hexec
      exact absurd (congrArg Prod.snd hexec).symm (posted_ne_self hne)
    · refine ⟨hlen, events_ok_iff.mp ?_⟩
      rw [exec_inject, if_neg (Nat.not_lt.mpr hlen)] at hexec
      cases hev : P.events o h pkt with
      | error stop =>
        rw [hev] at hexec
        cases (congrArg Prod.fst hexec)
      | ok evs' => exact ⟨evs', rfl⟩
  · rintro ⟨hlen, hfit⟩
    obtain ⟨evs, hev⟩ := events_ok_iff.mpr hfit
    exact ⟨evs, events_ne_nil hev, exec_inject_of_takes hlen hev ht⟩

end Platform

/-! ### Three platforms -/

/-- One platform of each kind. -/
def platforms (mac : MacOS) (win : Windows) : List Platform := [.macOS mac, .windows win, .uiohook]

/-- The three injectors of a type all post events for the packet, or all refuse it. -/
def Unanimous (o : ByteOrder) (mac : MacOS) (win : Windows) (h : Handler) (pkt : EventPacket)
    (d : Desktop) : Prop :=
  (∀ P ∈ platforms mac win, P.Posts o h pkt d) ∨ ∀ P ∈ platforms mac win, P.Refuses o h pkt d

/-- The packets on which the bounds agree, and the Windows conversion is defined. -/
def BoundsAgree (o : ByteOrder) (win : Windows) (h : Handler) (pkt : EventPacket) : Prop :=
  match h with
  | .injectKeyPress | .injectKeyRelease => pkt.payload.length < 2 ∨ 4 ≤ pkt.payload.length
  | .injectMouseMove => pkt.payload.length < 8 ∨ (Platform.windows win).Fits o .injectMouseMove pkt
  | .injectMouseButtonPress | .injectMouseButtonRelease =>
    pkt.payload.length < 4 ∨ 9 ≤ pkt.payload.length

/-- Whether the three do the same is a question of the bounds. -/
private theorem unanimous_iff_bounds {o : ByteOrder} {mac : MacOS} {win : Windows} {h : Handler}
    {pkt : EventPacket} {d : Desktop} (ht : ∀ P ∈ platforms mac win, P.Takes d.calls h) :
    Unanimous o mac win h pkt d ↔ BoundsAgree o win h pkt := by
  have hposts : (∀ P ∈ platforms mac win, P.Posts o h pkt d) ↔
      ∀ P ∈ platforms mac win, P.minPayload h ≤ pkt.payload.length ∧ P.Fits o h pkt :=
    forall₂_congr fun P hP => Platform.posts_iff (ht P hP)
  have hrefuses : (∀ P ∈ platforms mac win, P.Refuses o h pkt d) ↔
      ∀ P ∈ platforms mac win, pkt.payload.length < P.minPayload h :=
    forall₂_congr fun P _ => Platform.refuses_iff
  rw [Unanimous, hposts, hrefuses]
  cases h with
  | injectMouseMove =>
    rcases Nat.lt_or_ge pkt.payload.length 8 with hlen | hlen
    · simp [platforms, BoundsAgree, Platform.minPayload, hlen]
    · simp [platforms, BoundsAgree, Platform.minPayload, Platform.Fits, hlen, Nat.not_lt.mpr hlen]
  | _ =>
    simp [platforms, BoundsAgree, Platform.minPayload, Platform.Fits]
    omega

/-- Every bound is met by the packets of the client. -/
theorem minPayload_le_of_forwarded {c : Client} {now : UInt64} {data : Uiohook.EventData}
    {pkt : EventPacket} (hpkt : c.forwarded now data = some pkt) :
    ∃ h, handler? pkt.type = some h ∧ ∀ P : Platform, P.minPayload h ≤ pkt.payload.length := by
  have hkey : ∀ n, (c.byteOrder.encode 4 n).length = 4 := fun n => ByteOrder.length_encode _ _ _
  have hbutton : ∀ (b : UInt8) mouse, (b :: c.coords mouse).length = 9 :=
    Client.length_button_coords
  obtain ⟨k, rfl, rfl⟩ | ⟨k, rfl, rfl⟩ | ⟨m, rfl, rfl⟩ | ⟨m, rfl, rfl⟩ | ⟨m, rfl, rfl⟩ :=
    Client.forwarded_eq_some hpkt
  · exact ⟨.injectKeyPress, rfl, fun P => by cases P <;> simp [Platform.minPayload, hkey]⟩
  · exact ⟨.injectKeyRelease, rfl, fun P => by cases P <;> simp [Platform.minPayload, hkey]⟩
  · exact ⟨.injectMouseButtonPress, rfl, fun P => by
      cases P <;> simp [Platform.minPayload, hbutton]⟩
  · exact ⟨.injectMouseButtonRelease, rfl, fun P => by
      cases P <;> simp [Platform.minPayload, hbutton]⟩
  · exact ⟨.injectMouseMove, rfl, fun P => by
      cases P <;> simp [Platform.minPayload, Client.length_coords]⟩

/-- **When the three platforms accept the same packets.** Between the bounds they do not; but
none of them refuses a payload as long as one that the client sends. -/
theorem unanimous_iff {mac : MacOS} {win : Windows} {h : Handler} {d : Desktop}
    (ht : ∀ P ∈ platforms mac win, P.Takes d.calls h) (o : ByteOrder) (pkt : EventPacket) :
    (Unanimous o mac win h pkt d ↔ BoundsAgree o win h pkt) ∧
      ∀ c s call event bytes, Forwards c s call event bytes →
        ∃ (sent : EventPacket) (h' : Handler), bytes = sent.toBytes ∧ handler? sent.type = some h' ∧
          ∀ (P : Platform) pkt' d', pkt'.payload.length = sent.payload.length →
            ¬P.Refuses o h' pkt' d' := by
  refine ⟨unanimous_iff_bounds ht, fun c s call event bytes hforwards => ?_⟩
  obtain ⟨sent, hsent, rfl⟩ := hforwards.packet
  obtain ⟨h', hh', hmin⟩ := minPayload_le_of_forwarded hsent
  refine ⟨sent, h', rfl, hh', fun P pkt' d' hlen hrefuses => ?_⟩
  have hshort := Platform.refuses_iff.mp hrefuses
  rw [hlen] at hshort
  exact Nat.not_lt.mpr (hmin P) hshort

/-- Two machines and the fallback, which take every event. -/
private theorem takes_platforms (n : ℕ) (h : Handler) :
    ∀ P ∈ platforms iMac windowsPC, P.Takes n h := by
  have hmac : (Platform.macOS iMac).Takes n h := by cases h <;> rfl
  have hwin : (Platform.windows windowsPC).Takes n h := by cases h <;> rfl
  have huiohook : Platform.uiohook.Takes n h := trivial
  simp [platforms, hmac, hwin, huiohook]

theorem unanimous_keyPress : Unanimous .little iMac windowsPC .injectKeyPress keyPressPacket {} :=
  (unanimous_iff (d := {}) (takes_platforms 0 .injectKeyPress) .little keyPressPacket).1.mpr
    (.inr (by decide))

/-- A payload of two bytes is posted by the fallback and refused by the others. -/
theorem not_unanimous_twoBytes :
    (∀ P ∈ platforms iMac windowsPC, P.Takes 0 .injectKeyPress) ∧
      ¬Unanimous .little iMac windowsPC .injectKeyPress ⟨.keyPress, 0, 2, [30, 0]⟩ {} := by
  refine ⟨takes_platforms 0 .injectKeyPress, ?_⟩
  rintro (hposts | hrefuses)
  · have hmac := hposts (.macOS iMac) (by simp [platforms])
    have htakes : (Platform.macOS iMac).Takes (0 : ℕ) .injectKeyPress := rfl
    exact absurd ((Platform.posts_iff htakes).mp hmac).1 (by decide)
  · have huiohook := hrefuses .uiohook (by simp [platforms])
    exact absurd (Platform.refuses_iff.mp huiohook) (by decide)

end Sameness
