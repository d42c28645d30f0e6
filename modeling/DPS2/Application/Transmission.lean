import DPS2.Application.Messages
import DPS2.P2P.Transmission

/-! Messages from the memory of one peer to the inbox of another: written, framed, sent with a bit
flipped or not, received by the inbox thread, and read through the message pointer. -/
namespace DPS2.Application

open Codec P2P

/-- A message handed to broadcast or respond, and the draws of the call of send_message. -/
structure Transmission where
  message : Message
  sized : Sized message
  fits : headerSize + message.toBytes.length < 2 ^ 64
  rands : Rands

namespace Transmission

def payload (t : Transmission) : Payload := ⟨t.message.toBytes, t.fits⟩

def datagram (t : Transmission) (bitflipChance : Nat) : Bytes :=
  sentDatagram bitflipChance t.payload t.rands

/-- What the inbox thread should push for it. -/
def item (t : Transmission) : Bytes × Nat := (t.message.toBytes, t.message.toBytes.length)

theorem wellFormed (t : Transmission) (bitflipChance : Nat) :
    WellFormed (t.datagram bitflipChance) := (sent_checks _ _ _ _).1

theorem delivery_item {t : Transmission} {bitflipChance : Nat} {item : Bytes × Nat}
    (taken : delivery (t.datagram bitflipChance) = some item) : item = t.item := by
  have accept : accepted (t.datagram bitflipChance) = true := by
    by_contra refused
    rw [delivery, if_neg refused] at taken
    cases taken
  rw [datagram, sent_delivery bitflipChance t.payload t.rands accept] at taken
  exact (Option.some.inj taken).symm

end Transmission

/-- Strings of even length in the message; a key of odd length makes an odd frame. -/
def EvenStrings (m : Message) : Prop :=
  match m.body with
  | .block b => b.hash.length % 2 = 0 ∧ b.prevHash.length % 2 = 0
  | .vote _ hash => hash.length % 2 = 0
  | .addRequest pow b =>
      pow.length % 2 = 0 ∧ b.hash.length % 2 = 0 ∧ b.prevHash.length % 2 = 0
  | _ => True

theorem EvenStrings.deliverable {m : Message} (even : EvenStrings m) : Deliverable m.toBytes := by
  left
  have block (b : BType) : (dataFromBlock b).length =
      24 + (b.hash.length + b.prevHash.length + 1600) := by
    simp only [dataFromBlock, List.length_append, encode_length, b.data.size]
    omega
  obtain ⟨pa, index, body⟩ := m
  cases body with
  | block b =>
    obtain ⟨hash, prevHash⟩ := even
    rw [Message.toBytes, List.length_append, messageHeader_length, block]
    omega
  | requestBlock => rw [Message.toBytes, messageHeader_length]
  | noBlock => rw [Message.toBytes, messageHeader_length]
  | vote agree hash =>
    have whole : hash.length % 2 = 0 := even
    simp only [Message.toBytes, List.length_append, messageHeader_length, encode_length,
      List.length_replicate]
    omega
  | addRequest pow b =>
    obtain ⟨key, hash, prevHash⟩ := even
    simp only [Message.toBytes, List.length_append, messageHeader_length, encode_length, block]
    omega
  | unrecognized => rfl

section Inbox

variable (bitflipChance : Nat)

/-- Whatever arrives of what was sent, how often and in which order: an iteration of the inbox
thread that is not stale pushes nothing or a message that was sent, which is also what is read
through the pointer. -/
theorem inbox_genuine (sent : List Transmission) (es : List SocketEvent) (out : Received)
    (arrived : ∀ d ∈ arrivals es, ∃ t ∈ sent, d = t.datagram bitflipChance)
    (pre post : List SocketEvent) (split : es = pre ++ .iterate :: post)
    (fresh : ((InboxThread.mk [] out []).run pre).stale = false) :
    let thread := (InboxThread.mk [] out []).run pre
    thread.iterate.pushed = thread.pushed ∨
      ∃ t ∈ sent, thread.iterate.pushed = thread.pushed ++ [t.item] ∧
        ∀ msg : Memory, msg.Holds t.item.1 → readMessage msg = t.message := by
  intro thread
  have before : ∀ d ∈ arrivals pre, ∃ t ∈ sent, d = t.datagram bitflipChance :=
    fun d member => arrived d (by rw [split, arrivals_append]; exact List.mem_append_left _ member)
  have wf : ∀ d, (∃ t ∈ sent, d = t.datagram bitflipChance) → WellFormed d := by
    rintro _ ⟨t, -, rfl⟩
    exact t.wellFormed bitflipChance
  have waiting := @run_sock (InboxThread.mk [] out []) pre _ wf (by simp) before
  rcases iterate_pushes (fun d member => wf d (waiting d member)) fresh with
    nothing | ⟨d, member, item, taken, pushed⟩
  · exact Or.inl nothing
  · obtain ⟨t, inside, rfl⟩ := waiting d member
    rw [Transmission.delivery_item taken] at pushed
    exact Or.inr ⟨t, inside, pushed, fun msg holds => readMessage_toBytes t.sized holds⟩

end Inbox

/- A request for a block that is sent twice, the second time with a flipped bit. -/

def requestTwice : List Transmission :=
  [⟨⟨⟨2, 80, 1⟩, 1, .requestBlock⟩, ⟨by decide, trivial⟩, by decide, ⟨50, 0, 0⟩⟩,
    ⟨⟨⟨2, 80, 1⟩, 1, .requestBlock⟩, ⟨by decide, trivial⟩, by decide, ⟨10, 3, 30⟩⟩]

def requestsArrive : List SocketEvent :=
  (requestTwice.map fun t => .arrive (t.datagram 20)) ++ [.iterate, .iterate]

theorem requests_genuine :
    let thread := (InboxThread.mk [] ⟨none, 0⟩ []).run (requestsArrive.take 2)
    thread.iterate.pushed.length = 1 ∧ (thread.iterate.pushed = thread.pushed ∨
      ∃ t ∈ requestTwice, thread.iterate.pushed = thread.pushed ++ [t.item] ∧
        ∀ msg : Memory, msg.Holds t.item.1 → readMessage msg = t.message) := by
  refine ⟨by decide +kernel, ?_⟩
  apply inbox_genuine 20 requestTwice requestsArrive ⟨none, 0⟩ ?_ _ [.iterate] rfl
    (by decide +kernel)
  intro d member
  rcases List.mem_pair.mp member with rfl | rfl
  · exact ⟨requestTwice[0], List.getElem_mem _, rfl⟩
  · exact ⟨requestTwice[1], List.getElem_mem _, rfl⟩

end DPS2.Application
