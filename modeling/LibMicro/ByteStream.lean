import Mathlib.Data.List.Basic

namespace LibMicro.ByteStream

variable {α : Type}

/-- A stream with the bytes in flight, and with all that has been sent and
received since its beginning. -/
structure Channel (α : Type) where
  content : List α
  sent : List α
  received : List α
  fifo : sent = received ++ content

namespace Channel

def empty : Channel α := ⟨[], [], [], rfl⟩

def write (c : Channel α) (capacity : ℕ) (l : List α) : Option (Channel α) :=
  if c.content.length + l.length ≤ capacity then
    some ⟨c.content ++ l, c.sent ++ l, c.received, by rw [c.fifo, List.append_assoc]⟩
  else none

def read (c : Channel α) (n : ℕ) : Channel α :=
  ⟨c.content.drop n, c.sent, c.received ++ c.content.take n, by
    rw [List.append_assoc, List.take_append_drop]
    exact c.fifo⟩

theorem received_of_sent (c : Channel α) : c.received <+: c.sent := ⟨c.content, c.fifo.symm⟩

theorem sent_length (c : Channel α) : c.sent.length = c.received.length + c.content.length := by
  rw [c.fifo, List.length_append]

theorem write_eq {c d : Channel α} {capacity : ℕ} {l : List α} (h : c.write capacity l = some d) :
    d.sent = c.sent ++ l ∧ d.received = c.received := by
  unfold write at h
  split_ifs at h
  cases h
  exact ⟨rfl, rfl⟩

theorem write_room {c : Channel α} {capacity : ℕ} {l : List α}
    (h : c.content.length + l.length ≤ capacity) : ∃ d, c.write capacity l = some d :=
  ⟨_, if_pos h⟩

end Channel

/-- Equally long frames can be told apart in the stream of their bytes. -/
theorem frames_of_sent {n : ℕ} (hn : 0 < n) {xs ys : List (List α)} (hx : ∀ x ∈ xs, x.length = n)
    (hy : ∀ y ∈ ys, y.length = n) (h : ys.flatten <+: xs.flatten) : ys <+: xs := by
  induction ys generalizing xs with
  | nil => exact List.nil_prefix
  | cons y ys ih =>
    have hylen := hy y List.mem_cons_self
    cases xs with
    | nil =>
      have hle := h.length_le
      simp only [List.flatten_cons, List.flatten_nil, List.length_append, List.length_nil] at hle
      omega
    | cons x xs =>
      obtain ⟨t, ht⟩ := h
      rw [List.flatten_cons, List.flatten_cons, List.append_assoc] at ht
      obtain ⟨rfl, hrest⟩ := List.append_inj ht (hylen.trans (hx x List.mem_cons_self).symm)
      exact List.cons_prefix_cons.mpr ⟨rfl, ih (fun z hz ↦ hx z (List.mem_cons_of_mem _ hz))
        (fun z hz ↦ hy z (List.mem_cons_of_mem _ hz)) ⟨t, hrest⟩⟩

end LibMicro.ByteStream
