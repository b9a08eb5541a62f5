import Mathlib.Tactic

/-! A counting semaphore that releases its waiters in the order in which they came. The
count goes below zero by as many as wait. -/

namespace RCore.Lib

variable {α : Type}

/-- There were `n` permits and `ups` have been added; `started` are those who have asked
for one, in order. The first of them have been granted one, and the others are queued. -/
structure Account (n ups : ℕ) (started granted : List α) (count : ℤ) (queue : List α) : Prop where
  count : count = n + ups - started.length
  granted : granted = started.take (n + ups)
  queue : queue = started.drop (n + ups)

namespace Account

variable {n ups : ℕ} {started granted queue : List α} {count : ℤ}

theorem new (n : ℕ) : Account n 0 ([] : List α) [] n [] := ⟨by simp, by simp, by simp⟩

theorem queue_eq_nil (h : Account n ups started granted count queue) (hc : 0 ≤ count) :
    queue = [] := by
  have := h.count
  rw [h.queue, List.drop_eq_nil_iff]
  omega

/-- A permit is added: the first of those who wait has it. -/
theorem up (h : Account n ups started granted count queue) :
    Account n (ups + 1) started (granted ++ queue.take 1) (count + 1) queue.tail := by
  refine ⟨by rw [h.count]; push_cast; ring, ?_, ?_⟩
  · rw [h.granted, h.queue, ← List.take_add, Nat.add_assoc]
  · rw [h.queue, List.tail_drop, Nat.add_assoc]

/-- The count says whether there is anybody to be released. -/
theorem ite_tail (h : Account n ups started granted count queue) :
    (if count + 1 ≤ 0 then queue.tail else queue) = queue.tail := by
  split_ifs with hc
  · rfl
  · rw [h.queue_eq_nil (by omega), List.tail_nil]

/-- Someone asks for a permit, and waits if there is none. -/
theorem down (h : Account n ups started granted count queue) (t : α) :
    Account n ups (started ++ [t]) (granted ++ if count - 1 < 0 then [] else [t]) (count - 1)
      (if count - 1 < 0 then queue ++ [t] else queue) := by
  have hcount := h.count
  refine ⟨by rw [hcount, List.length_append, List.length_singleton]; push_cast; ring, ?_, ?_⟩
  · split_ifs with hc
    · rw [List.append_nil, h.granted, List.take_append_of_le_length (by omega)]
    · rw [h.granted, List.take_of_length_le (by omega), List.take_of_length_le]
      rw [List.length_append, List.length_singleton]
      omega
  · split_ifs with hc
    · rw [h.queue, List.drop_append_of_le_length (by omega)]
    · rw [h.queue_eq_nil (by omega), eq_comm, List.drop_eq_nil_iff, List.length_append,
        List.length_singleton]
      omega

theorem started_eq (h : Account n ups started granted count queue) : started = granted ++ queue := by
  rw [h.granted, h.queue, List.take_append_drop]

theorem length_queue (h : Account n ups started granted count queue) :
    (queue.length : ℤ) = max 0 (-count) := by
  have := h.count
  rw [h.queue, List.length_drop]
  omega

theorem granted_le (h : Account n ups started granted count queue) : granted.length ≤ n + ups := by
  rw [h.granted]
  exact List.length_take_le _ _

/-- There is a permit left only if nobody waits. -/
theorem queue_eq_nil_of_ne (h : Account n ups started granted count queue)
    (hne : granted.length ≠ n + ups) : queue = [] := by
  rw [h.granted, List.length_take] at hne
  rw [h.queue, List.drop_eq_nil_iff]
  omega

end Account

end RCore.Lib
