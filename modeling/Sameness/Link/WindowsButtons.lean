import Sameness.Link.EndToEnd

/-!
# Mouse buttons on Windows

The client sends a button as one byte with its number, followed by two coordinates; the
Windows injector takes the first four payload bytes for a word of `MOUSEEVENTF` flags, and
shifts it for a release. `word_button` says what the two layouts have in common: the button's
number is one byte of the word, the lowest or the highest, as the server's byte order has it.
No flag of the Windows API has its button's number in either place, so the word is never the
right one (`not_postsFlag`).
-/

namespace Sameness

open Bytes Cpp Eff Uiohook

/-- `MOUSEEVENTF_LEFTDOWN`, `MOUSEEVENTF_RIGHTDOWN` and `MOUSEEVENTF_MIDDLEDOWN` for the
buttons of libuiohook. -/
def downFlag (button : UInt16) : Option UInt32 :=
  if button = 1 then some 0x0002
  else if button = 2 then some 0x0008
  else if button = 3 then some 0x0020
  else none

/-- `MOUSEEVENTF_LEFTUP`, `MOUSEEVENTF_RIGHTUP` and `MOUSEEVENTF_MIDDLEUP`. -/
def upFlag (button : UInt16) : Option UInt32 :=
  if button = 1 then some 0x0004
  else if button = 2 then some 0x0010
  else if button = 3 then some 0x0040
  else none

/-- The flag for a press or a release of one of the three buttons. -/
def buttonFlag : EventData → Option UInt32
  | .mousePressed mouse => downFlag mouse.button
  | .mouseReleased mouse => upFlag mouse.button
  | _ => none

/-- The server on Windows, in the state `t`, passes the flag to `SendInput` for the bytes. -/
def PostsFlag (o : ByteOrder) (os : Windows) (t : ServerState) (bytes : List UInt8)
    (flag : UInt32) : Prop :=
  ∃ dx dy, (exec (handleData o (.windows os) bytes) t).2.desktop.posted =
    t.desktop.posted ++ [⟨.mouseInput dx dy flag, t.desktop.isInjectedEvent⟩]

/-! ### The flag word -/

/-- The button's number is the lowest byte of the word on a little-endian server, and the
highest on a big-endian one. -/
theorem word_button (o : ByteOrder) (b : UInt8) {rest : List UInt8} (h : rest.length = 8) :
    word o 0 4 (b :: rest) < 2 ^ 32 ∧
      (word o 0 4 (b :: rest) % 2 ^ 8 = b.toNat ∨ word o 0 4 (b :: rest) / 2 ^ 24 = b.toNat) := by
  have hb : b.toNat < 256 := b.toNat_lt
  have hlen : (rest.take 3).length = 3 := by
    rw [List.length_take, h]
    rfl
  have hfour : ((b :: rest).drop 0).take 4 = b :: rest.take 3 := rfl
  -- little-endian: the number is the remainder; big-endian: the quotient
  rcases o with _ | _
  · have hlow := value_lt (rest.take 3)
    rw [hlen] at hlow
    rw [word, hfour, ByteOrder.decode, value_cons]
    omega
  · have hlow := value_lt (rest.take 3).reverse
    rw [List.length_reverse, hlen] at hlow
    rw [word, hfour, ByteOrder.decode, List.reverse_cons, value_append, List.length_reverse, hlen,
      value_cons, value_nil]
    omega

/-- The flag that is passed is the one in the posted event. -/
private theorem PostsFlag.eq {o : ByteOrder} {os : Windows} {t : ServerState}
    {bytes : List UInt8} {flag flags : UInt32} (h : PostsFlag o os t bytes flag)
    (hdesktop : (exec (handleData o (.windows os) bytes) t).2.desktop =
      (Platform.windows os).posted [.mouseInput 0 0 flags] t.desktop) : flag = flags := by
  obtain ⟨dx, dy, hposted⟩ := h
  rw [hdesktop] at hposted
  have hevent := List.append_cancel_left hposted
  cases hevent
  rfl

/-- A flag looked up for one of the three buttons is the flag of that button. -/
private theorem of_flags {button : UInt16} {f₁ f₂ f₃ flag : UInt32}
    (h : (if button = 1 then some f₁ else if button = 2 then some f₂
      else if button = 3 then some f₃ else none) = some flag) :
    button = 1 ∧ f₁ = flag ∨ button = 2 ∧ f₂ = flag ∨ button = 3 ∧ f₃ = flag := by
  split_ifs at h with h1 h2 h3
  · exact .inl ⟨h1, Option.some.inj h⟩
  · exact .inr (.inl ⟨h2, Option.some.inj h⟩)
  · exact .inr (.inr ⟨h3, Option.some.inj h⟩)

/-- A word with the button's number for its lowest or highest byte is not the button's down
flag. -/
private theorem downFlag_ne {button : UInt16} {flag : UInt32} {w : ℕ}
    (hflag : downFlag button = some flag) (hw : w < 2 ^ 32)
    (hbyte : w % 2 ^ 8 = button.toUInt8.toNat ∨ w / 2 ^ 24 = button.toUInt8.toNat) :
    flag ≠ UInt32.ofNat w := by
  intro heq
  have hnat : flag.toNat = w := by rw [heq, UInt32.toNat_ofNat_of_lt' hw]
  -- the flags 0x02, 0x08 and 0x20 have neither byte right
  obtain ⟨rfl, rfl⟩ | ⟨rfl, rfl⟩ | ⟨rfl, rfl⟩ := of_flags hflag
  all_goals simp at hnat hbyte; omega

/-- The same for the word shifted for a release and the up flag. -/
private theorem upFlag_ne {button : UInt16} {flag : UInt32} {w : ℕ}
    (hflag : upFlag button = some flag) (hw : w < 2 ^ 32)
    (hbyte : w % 2 ^ 8 = button.toUInt8.toNat ∨ w / 2 ^ 24 = button.toUInt8.toNat) :
    flag ≠ UInt32.ofNat w <<< 1 := by
  intro heq
  -- the top bit of the word is lost
  have hnat : flag.toNat = w * 2 % 2 ^ 32 := by
    rw [heq, UInt32.toNat_shiftLeft, UInt32.toNat_ofNat_of_lt' hw]
    exact congrArg (· % 2 ^ 32) (Nat.shiftLeft_eq w 1)
  obtain ⟨rfl, rfl⟩ | ⟨rfl, rfl⟩ | ⟨rfl, rfl⟩ := of_flags hflag
  all_goals simp at hnat hbyte; omega

/-- What a button's packet carries is long enough for the injector, and its flag word is made
from the button's number. -/
private theorem word_buttonPayload (o : ByteOrder) (c : Client) (mouse : MouseEventData) :
    4 ≤ (mouse.button.toUInt8 :: c.coords mouse).length ∧
      word o 0 4 (mouse.button.toUInt8 :: c.coords mouse) < 2 ^ 32 ∧
      (word o 0 4 (mouse.button.toUInt8 :: c.coords mouse) % 2 ^ 8 = mouse.button.toUInt8.toNat ∨
        word o 0 4 (mouse.button.toUInt8 :: c.coords mouse) / 2 ^ 24 =
          mouse.button.toUInt8.toNat) := by
  refine ⟨?_, word_button o mouse.button.toUInt8 (Client.length_coords (c := c) mouse)⟩
  rw [Client.length_button_coords]
  decide

/-- The server passes other flags than the button's for its packet. -/
theorem not_postsFlag_of_forwarded {c : Client} {now : UInt64} {data : EventData}
    {pkt : EventPacket} {flag : UInt32} (hpkt : c.forwarded now data = some pkt)
    (hflag : buttonFlag data = some flag) (o : ByteOrder) {os : Windows}
    (hos : ∀ n, os.inserted n 1 = 1) (t : ServerState) :
    ¬PostsFlag o os t pkt.toBytes flag := by
  intro hposts
  have hsized := Client.sized_forwarded hpkt
  obtain ⟨k, rfl, -⟩ | ⟨k, rfl, -⟩ | ⟨m, rfl, rfl⟩ | ⟨m, rfl, rfl⟩ | ⟨m, rfl, -⟩ :=
    Client.forwarded_eq_some hpkt
  · cases hflag
  · cases hflag
  · obtain ⟨hlen, hw, hbyte⟩ := word_buttonPayload o c m
    have heq := hposts.eq (posted_of_packet hsized rfl hlen rfl (hos t.desktop.calls))
    exact downFlag_ne hflag hw hbyte heq
  · obtain ⟨hlen, hw, hbyte⟩ := word_buttonPayload o c m
    have heq := hposts.eq (posted_of_packet hsized rfl hlen rfl (hos t.desktop.calls))
    exact upFlag_ne hflag hw hbyte heq
  · cases hflag

/-- **Buttons never work on Windows.** For every press and release of one of the three
buttons that the client forwards, the server passes `SendInput` a word other than the flag of
the button. -/
theorem not_postsFlag {c : Client} {s : ClientState} {call : HookCall} {event : Event}
    {bytes : List UInt8} {flag : UInt32} (h : Forwards c s call event bytes)
    (hflag : buttonFlag event.data = some flag) (o : ByteOrder) {os : Windows}
    (hos : ∀ n, os.inserted n 1 = 1) (t : ServerState) : ¬PostsFlag o os t bytes flag := by
  obtain ⟨pkt, hpkt, rfl⟩ := h.packet
  exact not_postsFlag_of_forwarded hpkt hflag o hos t

/-- A Windows machine that inserts every event. -/
def windowsPC : Windows := ⟨1920, 1080, fun _ k => k⟩

/-- A big-endian server takes the button for the highest byte of the word. -/
theorem not_postsFlag_leftPress_big :
    ¬PostsFlag .big windowsPC {} leftPressPacket.toBytes 0x0002 :=
  not_postsFlag forwards_leftPress rfl .big (fun _ => rfl) {}

/-- On little-endian machines the word for the left button ends in `0x01`; its flag is
`0x0002`. -/
theorem not_postsFlag_leftPress :
    Forwards defaultClient crossed ⟨0, some leftPress⟩ leftPress leftPressPacket.toBytes ∧
      ¬PostsFlag .little windowsPC {} leftPressPacket.toBytes 0x0002 :=
  ⟨forwards_leftPress,
    not_postsFlag_of_forwarded forwarded_leftPress rfl .little (fun _ => rfl) {}⟩

end Sameness
