import Mathlib.Data.List.Basic

/-!
# A receiver and its queue

Messages are handled one by one, in the order in which they were sent. What the receiver will be when it has handled all that is
in its queue is changed by a message that is sent, as if it were handled at once, and not by one that is handled: so what is
known of it as messages are sent holds of the receiver whenever its queue is empty.
-/

/-- A receiver and the messages it has not handled yet. -/
structure Mailbox (σ μ : Type*) where
  state : σ
  queue : List μ

namespace Mailbox

variable {σ μ : Type*} (handle : σ → μ → σ)

/-- A message is sent. -/
def send (m : Mailbox σ μ) (msg : μ) : Mailbox σ μ := { m with queue := m.queue ++ [msg] }

/-- The first message is handled, if there is one. -/
def receive (m : Mailbox σ μ) : Mailbox σ μ :=
  match m.queue with
  | [] => m
  | msg :: queue => ⟨handle m.state msg, queue⟩

/-- The receiver when it has handled all messages of its queue. -/
def settled (m : Mailbox σ μ) : σ := m.queue.foldl handle m.state

theorem settled_send (m : Mailbox σ μ) (msg : μ) : (m.send msg).settled handle = handle (m.settled handle) msg := by
  rw [settled, send, List.foldl_append]
  rfl

theorem settled_receive (m : Mailbox σ μ) : (m.receive handle).settled handle = m.settled handle := by
  obtain ⟨state, queue⟩ := m
  cases queue <;> rfl

/-- With an empty queue, the receiver is what it was going to be. -/
theorem settled_of_queue_eq_nil {m : Mailbox σ μ} (h : m.queue = []) : m.settled handle = m.state := by
  rw [settled, h]
  rfl

end Mailbox
