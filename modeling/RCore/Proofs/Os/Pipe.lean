import RCore.Lib.Heap
import RCore.Sanity.Os.Pipe

/-! Pipes deliver: whatever the readers and writers and the order in which their calls
take turns, bytes come out in the order in which they went in, and none is lost. And
when a call that has nothing more to do returns. -/

namespace RCore.Os

open RCore.Lib PipeRingBuffer PipeState

variable {s s' : PipeState} {e : Event}

section rounds

variable {r r' : PipeRingBuffer} {bytes : List UInt8} {strongCount : ℕ}

theorem contents_eq_nil (h : r.availableRead = 0) : r.contents = [] :=
  List.length_eq_zero_iff.mp (by rw [length_contents, h])

/-- One round of `read`. It returns too few bytes only when there are none and no one is
left to write any. -/
theorem readRound_spec {c c' : ReadCall} (hlen : c.filled.length ≤ c.len)
    (hresult : c.result = none) (h : readRound strongCount c r = some (c', r', bytes)) :
    r.contents = bytes ++ r'.contents ∧ c'.filled = c.filled ++ bytes ∧ c'.len = c.len ∧
      c'.filled.length ≤ c'.len ∧
      ∀ k, c'.result = some k → k = c'.filled.length ∧
        (k < c'.len → r.contents = [] ∧ strongCount = 0) := by
  rw [readRound] at h
  split_ifs at h with hzero
  · have hnil := contents_eq_nil hzero
    rw [allWriteEndsClosed] at h
    split_ifs at h with hset
    · simp only [Option.bind_eq_bind, Option.bind_some] at h
      split_ifs at h with hclosed
      · cases h
        refine ⟨by simp, by simp, rfl, hlen, fun k hk => ?_⟩
        exact ⟨(Option.some.inj hk).symm, fun _ => ⟨hnil, by simpa using hclosed⟩⟩
      · cases h
        exact ⟨by simp, by simp, rfl, hlen, fun k hk => by rw [hresult] at hk; cases hk⟩
    · cases h
  · obtain ⟨hq, hfilled, hlen', hle, -, hres⟩ :=
      readBytes_spec le_rfl hlen hresult (Option.some.inj h)
    refine ⟨hq, hfilled, hlen', hle, fun k hk => ?_⟩
    obtain ⟨hk₁, hk₂⟩ := hres k hk
    exact ⟨hk₁, fun hlt => absurd hk₂ hlt.ne⟩

/-- One round of `write`. -/
theorem writeRound_spec {c c' : WriteCall} (hresult : c.result = none)
    (h : writeRound c r = (c', r', bytes)) :
    r'.contents = r.contents ++ bytes ∧ c.rest = bytes ++ c'.rest ∧ c'.buf = c.buf ∧
      c'.writeSize = c.writeSize + bytes.length ∧
      ∀ k, c'.result = some k → k = c'.writeSize ∧ c'.rest = [] := by
  rw [writeRound] at h
  split_ifs at h with hzero
  · cases h
    simp [hresult]
  · have hle := r.availableRead_le
    obtain ⟨hq, hrest, hbuf, hsize, -, hres⟩ :=
      writeBytes_spec (by rw [availableWrite_eq]; omega) hresult h
    exact ⟨hq, hrest, hbuf, hsize, hres⟩

end rounds

section log

variable {i j : ℕ} {log : List (ℕ × UInt8)} {bytes : List UInt8}

theorem movedBy_append_self (i : ℕ) (log : List (ℕ × UInt8)) (bytes : List UInt8) :
    movedBy i (log ++ bytes.map (i, ·)) = movedBy i log ++ bytes := by
  rw [movedBy, movedBy, List.filter_append, List.map_append]
  congr 1
  rw [List.filter_map, List.map_map, List.filter_eq_self.mpr (by simp)]
  simp

theorem movedBy_append_ne (h : i ≠ j) : movedBy i (log ++ bytes.map (j, ·)) = movedBy i log := by
  rw [movedBy, movedBy, List.filter_append, List.map_append, List.filter_map]
  simp [Function.comp_def, h.symm]

theorem movedBy_eq_nil (h : ∀ e ∈ log, e.1 < i) : movedBy i log = [] := by
  rw [movedBy, List.map_eq_nil_iff, List.filter_eq_nil_iff]
  intro e he
  simpa using (h e he).ne

theorem log_lt_append {n : ℕ} (h : ∀ e ∈ log, e.1 < n) (hi : i < n) :
    ∀ e ∈ log ++ bytes.map (i, ·), e.1 < n := by
  intro e he
  rcases List.mem_append.mp he with he | he
  · exact h e he
  · obtain ⟨b, -, rfl⟩ := List.mem_map.mp he
    exact hi

theorem map_snd_tag (i : ℕ) (bytes : List UInt8) : (bytes.map (i, ·)).map Prod.snd = bytes := by
  rw [List.map_map]
  simp

end log

/-- What holds of a pipe at every moment. -/
structure Delivers (s : PipeState) : Prop where
  fifo : s.taken.map Prod.snd ++ s.ring.contents = s.written.map Prod.snd
  reads : ∀ i c, s.reads[i]? = some c → movedBy i s.taken = c.filled ∧
    c.filled.length ≤ c.len ∧ ∀ k, c.result = some k → k = c.filled.length
  writes : ∀ i c, s.writes[i]? = some c → movedBy i s.written ++ c.rest = c.buf ∧
    c.writeSize = (movedBy i s.written).length ∧
      ∀ k, c.result = some k → k = c.writeSize ∧ c.rest = []
  taken_lt : ∀ x ∈ s.taken, x.1 < s.reads.length
  written_lt : ∀ x ∈ s.written, x.1 < s.writes.length

/-- What a round of a call of `read` has done to the pipe. -/
theorem step_read {i : ℕ} (h : s.step (.read i) = some s') :
    ∃ c c' r' bytes, s.reads[i]? = some c ∧ c.result = none ∧
      readRound s.strongCount c s.ring = some (c', r', bytes) ∧
      s' = { s with
        ring := r', reads := s.reads.set i c', taken := s.taken ++ bytes.map (i, ·) } := by
  rw [step, Option.bind_eq_bind, Option.bind_eq_some_iff] at h
  obtain ⟨c, hc, h⟩ := h
  split_ifs at h with hres
  rw [Option.bind_eq_bind, Option.bind_eq_some_iff] at h
  obtain ⟨⟨c', r', bytes⟩, hround, h⟩ := h
  exact ⟨c, c', r', bytes, hc, by simpa using hres, hround, (Option.some.inj h).symm⟩

theorem step_write {i : ℕ} (h : s.step (.write i) = some s') :
    ∃ c c' r' bytes, s.writes[i]? = some c ∧ c.result = none ∧
      writeRound c s.ring = (c', r', bytes) ∧
      s' = { s with
        ring := r', writes := s.writes.set i c', written := s.written ++ bytes.map (i, ·) } := by
  rw [step, Option.bind_eq_bind, Option.bind_eq_some_iff] at h
  obtain ⟨c, hc, h⟩ := h
  split_ifs at h with hres
  exact ⟨c, _, _, _, hc, by simpa using hres, rfl, (Option.some.inj h).symm⟩

theorem Delivers.init : Delivers .makePipe := by
  constructor <;> simp [makePipe, contents_eq_nil, PipeRingBuffer.new, setWriteEnd, availableRead]

theorem Delivers.startRead (h : Delivers s) (len : ℕ) :
    Delivers { s with reads := s.reads ++ [⟨len, [], none⟩] } := by
  refine ⟨h.fifo, fun i c hc => ?_, h.writes, fun x hx => ?_, h.written_lt⟩
  · rcases getElem?_snoc_cases hc with hc | ⟨rfl, rfl⟩
    · exact h.reads i c hc
    · exact ⟨movedBy_eq_nil h.taken_lt, Nat.zero_le _, fun k hk => by cases hk⟩
  · rw [List.length_append]
    exact (h.taken_lt x hx).trans_le (Nat.le_add_right _ _)

theorem Delivers.startWrite (h : Delivers s) (buf : List UInt8) :
    Delivers { s with writes := s.writes ++ [⟨buf, buf, 0, none⟩] } := by
  refine ⟨h.fifo, h.reads, fun i c hc => ?_, h.taken_lt, fun x hx => ?_⟩
  · rcases getElem?_snoc_cases hc with hc | ⟨rfl, rfl⟩
    · exact h.writes i c hc
    · simp [movedBy_eq_nil h.written_lt]
  · rw [List.length_append]
    exact (h.written_lt x hx).trans_le (Nat.le_add_right _ _)

theorem Delivers.read {i : ℕ} (h : Delivers s) (hs : s.step (.read i) = some s') :
    Delivers s' := by
  obtain ⟨c, c', r', bytes, hc, hres, hround, rfl⟩ := step_read hs
  obtain ⟨hmoved, hle, -⟩ := h.reads i c hc
  obtain ⟨hq, hfilled, hlen, hle', hret⟩ := readRound_spec hle hres hround
  have hi := (List.getElem?_eq_some_iff.mp hc).1
  refine ⟨?_, fun j c₁ hc₁ => ?_, h.writes, ?_, h.written_lt⟩
  · simp only [List.map_append, map_snd_tag]
    rw [List.append_assoc, ← hq, h.fifo]
  · by_cases hj : j = i
    · subst hj
      rw [List.getElem?_set_self hi, Option.some.injEq] at hc₁
      subst hc₁
      exact ⟨by rw [movedBy_append_self, hmoved, hfilled], hle', fun k hk => (hret k hk).1⟩
    · rw [List.getElem?_set_ne (Ne.symm hj)] at hc₁
      rw [movedBy_append_ne hj]
      exact h.reads j c₁ hc₁
  · simp only [List.length_set]
    exact log_lt_append h.taken_lt hi

theorem Delivers.write {i : ℕ} (h : Delivers s) (hs : s.step (.write i) = some s') :
    Delivers s' := by
  obtain ⟨c, c', r', bytes, hc, hres, hround, rfl⟩ := step_write hs
  obtain ⟨hmoved, hsize, -⟩ := h.writes i c hc
  obtain ⟨hq, hrest, hbuf, hsize', hret⟩ := writeRound_spec hres hround
  have hi := (List.getElem?_eq_some_iff.mp hc).1
  refine ⟨?_, h.reads, fun j c₁ hc₁ => ?_, h.taken_lt, ?_⟩
  · simp only [List.map_append, map_snd_tag]
    rw [hq, ← List.append_assoc, h.fifo]
  · by_cases hj : j = i
    · subst hj
      rw [List.getElem?_set_self hi, Option.some.injEq] at hc₁
      subst hc₁
      rw [movedBy_append_self]
      refine ⟨?_, by rw [hsize', hsize, List.length_append], hret⟩
      rw [List.append_assoc, ← hrest, hmoved, hbuf]
    · rw [List.getElem?_set_ne (Ne.symm hj)] at hc₁
      rw [movedBy_append_ne hj]
      exact h.writes j c₁ hc₁
  · simp only [List.length_set]
    exact log_lt_append h.written_lt hi

/-- Every event keeps the invariant. -/
theorem Delivers.step (h : Delivers s) (hs : s.step e = some s') : Delivers s' := by
  cases e with
  | startRead len =>
    cases hs
    exact h.startRead len
  | startWrite buf =>
    rw [PipeState.step] at hs
    split_ifs at hs
    cases hs
    exact h.startWrite buf
  | read i => exact h.read hs
  | write i => exact h.write hs
  | cloneWriteEnd =>
    rw [PipeState.step] at hs
    split_ifs at hs
    cases hs
    exact ⟨h.fifo, h.reads, h.writes, h.taken_lt, h.written_lt⟩
  | dropWriteEnd =>
    rw [PipeState.step] at hs
    split_ifs at hs
    cases hs
    exact ⟨h.fifo, h.reads, h.writes, h.taken_lt, h.written_lt⟩

theorem PipeRun.foldlM {events : List Event} (h : PipeRun s)
    (hs : events.foldlM PipeState.step s = some s') : PipeRun s' := by
  induction events generalizing s with
  | nil =>
    cases hs
    exact h
  | cons e events ih =>
    rw [List.foldlM_cons, Option.bind_eq_bind, Option.bind_eq_some_iff] at hs
    obtain ⟨s₁, he, hs⟩ := hs
    exact ih (h.step he) hs

theorem PipeRun.delivers (h : PipeRun s) : Delivers s := by
  induction h with
  | init => exact .init
  | step h hs ih => exact ih.step hs

/-- The bytes that have been taken, followed by those in the buffer, are the bytes that
have been put in; a `write` that has returned has put in all its bytes in order; the
bytes that a `read` has are those it took; and it returns with fewer than it asked for
only when the buffer is empty and every write end is closed. -/
theorem pipe_delivery (h : PipeRun s) :
    s.taken.map Prod.snd ++ s.ring.contents = s.written.map Prod.snd ∧
    s.ring.contents.length ≤ 256 ∧
    (∀ i c k, s.writes[i]? = some c → c.result = some k →
      k = c.buf.length ∧ movedBy i s.written = c.buf) ∧
    (∀ i c, s.reads[i]? = some c → movedBy i s.taken = c.filled) ∧
    (∀ i s' c' k, s.step (.read i) = some s' → s'.reads[i]? = some c' → c'.result = some k →
      k = c'.filled.length ∧ (k < c'.len → s.ring.contents = [] ∧ s.strongCount = 0)) := by
  have hd := h.delivers
  refine ⟨hd.fifo, ?_, fun i c k hc hk => ?_, fun i c hc => (hd.reads i c hc).1,
    fun i s' c' k hs hc' hk => ?_⟩
  · rw [length_contents]
    exact s.ring.availableRead_le
  · obtain ⟨hmoved, hsize, hret⟩ := hd.writes i c hc
    obtain ⟨hk, hnil⟩ := hret k hk
    rw [hnil, List.append_nil] at hmoved
    exact ⟨by rw [hk, hsize, hmoved], hmoved⟩
  · obtain ⟨c, c₁, r', bytes, hc, hres, hround, rfl⟩ := step_read hs
    have hi := (List.getElem?_eq_some_iff.mp hc).1
    rw [List.getElem?_set_self hi, Option.some.injEq] at hc'
    subst hc'
    exact (readRound_spec (hd.reads i c hc).2.1 hres hround).2.2.2.2 k hk

/-- A reader that asks for four bytes and has found two. -/
theorem pipe_delivery_half_read :
    ∃ s, [.startWrite [1, 2], .startRead 4, .write 0, .read 0, .startWrite [3], .write 1].foldlM
        PipeState.step makePipe = some s ∧
      s.taken.map Prod.snd = [1, 2] ∧ s.taken.map Prod.snd ++ s.ring.contents = [1, 2, 3] := by
  have hrun : ([.startWrite [1, 2], .startRead 4, .write 0, .read 0, .startWrite [3],
      .write 1].foldlM PipeState.step makePipe).map
        (fun s => (s.taken.map Prod.snd, s.written.map Prod.snd)) = some ([1, 2], [1, 2, 3]) := by
    decide +kernel
  obtain ⟨s, hs, hlogs⟩ := Option.map_eq_some_iff.mp hrun
  obtain ⟨htaken, hwritten⟩ := Prod.mk.inj hlogs
  exact ⟨s, hs, htaken, (pipe_delivery (PipeRun.init.foldlM hs)).1.trans hwritten⟩

/-- A filled buffer is noticed when there is a byte that would not fit. -/
theorem readRound_filled {c : ReadCall} {r : PipeRingBuffer} (hset : r.writeEnd = true)
    (hresult : c.result = none) (hfilled : c.filled.length = c.len) (strongCount : ℕ) :
    ∃ c', readRound strongCount c r = some (c', r, []) ∧
      (c'.result.isSome ↔ r.availableRead ≠ 0 ∨ strongCount = 0) := by
  rw [readRound]
  split_ifs with hzero
  · rw [allWriteEndsClosed, if_pos hset, Option.bind_eq_bind, Option.bind_some]
    by_cases hk : strongCount = 0 <;> simp [hk, hzero, hresult]
  · obtain ⟨n, hn⟩ := Nat.exists_eq_succ_of_ne_zero hzero
    rw [hn, readBytes, if_neg (by omega)]
    simp

/-- That there is nothing left to write is noticed when there is room for more. -/
theorem writeRound_finished {c : WriteCall} {r : PipeRingBuffer} (hresult : c.result = none)
    (hrest : c.rest = []) :
    ∃ c', writeRound c r = (c', r, []) ∧ (c'.result.isSome ↔ r.availableWrite ≠ 0) := by
  rw [writeRound]
  split_ifs with hzero
  · simp [hzero, hresult]
  · obtain ⟨n, hn⟩ := Nat.exists_eq_succ_of_ne_zero hzero
    rw [hn, writeBytes, hrest]
    simp

/-- Whether call `i` of `read` returns when it takes its turn. -/
def readReturns (s : PipeState) (i : ℕ) : Prop :=
  ∃ s' c, s.step (.read i) = some s' ∧ s'.reads[i]? = some c ∧ c.result.isSome

def writeReturns (s : PipeState) (i : ℕ) : Prop :=
  ∃ s' c, s.step (.write i) = some s' ∧ s'.writes[i]? = some c ∧ c.result.isSome

/-- A `read` whose buffer is full returns in its next turn exactly if there is another
byte in the pipe or no write end is left, and a `write` that has put in all its bytes
exactly if there is room for another byte. -/
theorem finished_call_returns_iff (hset : s.ring.writeEnd = true) (i : ℕ) :
    (∀ c, s.reads[i]? = some c → c.result = none → c.filled.length = c.len →
      (readReturns s i ↔ s.ring.contents ≠ [] ∨ s.strongCount = 0)) ∧
    (∀ c, s.writes[i]? = some c → c.result = none → c.rest = [] →
      (writeReturns s i ↔ s.ring.contents.length < 256)) := by
  constructor
  · intro c hc hresult hfilled
    obtain ⟨c', hround, hiff⟩ := readRound_filled hset hresult hfilled s.strongCount
    have hi := (List.getElem?_eq_some_iff.mp hc).1
    have hstep : s.step (.read i) = some { s with
        ring := s.ring, reads := s.reads.set i c', taken := s.taken ++ [].map (i, ·) } := by
      simp [PipeState.step, hc, hresult, hround]
    rw [← List.length_pos_iff, length_contents, Nat.pos_iff_ne_zero, ← hiff, readReturns, hstep]
    simp [List.getElem?_set_self hi]
  · intro c hc hresult hrest
    obtain ⟨c', hround, hiff⟩ := writeRound_finished (r := s.ring) hresult hrest
    have hi := (List.getElem?_eq_some_iff.mp hc).1
    have hstep : s.step (.write i) = some { s with
        ring := s.ring, writes := s.writes.set i c', written := s.written ++ [].map (i, ·) } := by
      simp [PipeState.step, hc, hresult, hround]
    have hroom : s.ring.contents.length < 256 ↔ s.ring.availableWrite ≠ 0 := by
      rw [length_contents, availableWrite_eq]
      omega
    rw [hroom, ← hiff, writeReturns, hstep]
    simp [List.getElem?_set_self hi]

/-- A new pipe: a `read` of nothing waits. -/
theorem finished_call_returns_iff_read_nothing :
    ∃ s, makePipe.step (.startRead 0) = some s ∧ ¬ readReturns s 0 := by
  refine ⟨_, rfl, fun h => ?_⟩
  have hiff := ((finished_call_returns_iff (by rfl) 0).1 _ rfl rfl rfl).mp h
  revert hiff
  decide +kernel

/-- A `read` of nothing from a new pipe, and a `write` of 256 bytes that are all in the
pipe: both have nothing left to do, and have not returned after their next turn. -/
theorem finished_calls_wait :
    ([.startRead 0, .read 0].foldlM PipeState.step makePipe).bind (·.reads[0]?) =
        some ⟨0, [], none⟩ ∧
      ([.startWrite (List.replicate 256 0), .write 0].foldlM PipeState.step makePipe).bind
          (·.writes[0]?) = some ⟨List.replicate 256 0, [], 256, none⟩ ∧
      ([.startWrite (List.replicate 256 0), .write 0, .write 0].foldlM
          PipeState.step makePipe).bind (·.writes[0]?) =
        some ⟨List.replicate 256 0, [], 256, none⟩ := by
  decide +kernel

end RCore.Os
