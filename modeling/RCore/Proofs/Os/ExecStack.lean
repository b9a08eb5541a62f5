import RCore.Proofs.Mm.Uaccess
import RCore.Proofs.Os.Exec

/-! Where `exec` leaves the user stack: how it is aligned, and how much of it the arguments
take. -/

namespace RCore.Os

open RCore.Lib RCore.Mm Logged Memory

variable {mem mem' : Memory} {p ptr ustackTop top base entry : Usize} {s : String}
  {args : List String} {ptrs argvVec : List Usize} {lo hi n : ℕ}

/-! Alignment -/

theorem pushStrings_length (h : (pushStrings ustackTop argvVec args mem).2 = .ok ((top, ptrs), mem')) :
    ptrs.length = argvVec.length + args.length := by
  induction args generalizing ustackTop argvVec mem with
  | nil =>
    cases h
    rfl
  | cons s args ih =>
    rw [pushStrings] at h
    obtain ⟨ptr, mem₁, -, h⟩ := ok_of_bind h
    have hlen := ih h
    rw [List.length_append, List.length_singleton] at hlen
    rw [hlen, List.length_cons]
    omega

/-- Each pointer takes 8 bytes. -/
theorem pushPointers_eq (h : (pushPointers ustackTop argvVec mem).2 = .ok (base, mem')) :
    base = ustackTop - BitVec.ofNat 64 (8 * argvVec.length) := by
  induction argvVec generalizing ustackTop mem with
  | nil =>
    cases h
    exact (BitVec.sub_zero _).symm
  | cons arg argvVec ih =>
    rw [pushPointers] at h
    obtain ⟨p, mem₁, hpush, h⟩ := ok_of_bind h
    rw [pushStack] at hpush
    obtain ⟨_, mem₂, -, hpush⟩ := ok_of_bind hpush
    cases hpush
    rw [ih h, List.length_cons, Nat.mul_succ, BitVec.ofNat_add, BitVec.add_comm]
    exact BitVec.sub_sub _ _ _

/-- The stack pointer that `exec` leaves is a multiple of 16 exactly if the number of
arguments is even: the pointers are pushed after the stack has been aligned. -/
theorem exec_stack_aligned_iff {tf : TrapFrame} {argc : ℕ}
    (h : (execArgs entry ustackTop args mem).2 = .ok ((tf, argc), mem')) :
    tf.usp.toNat % 16 = 0 ↔ args.length % 2 = 0 := by
  rw [execArgs] at h
  obtain ⟨⟨top, vec⟩, mem₁, hstrings, h⟩ := ok_of_bind h
  obtain ⟨argvBase, mem₂, hpointers, h⟩ := ok_of_bind h
  cases h
  have hlen := pushStrings_length hstrings
  rw [List.length_nil, List.length_reverse, Nat.zero_add] at hlen
  have halign : (top &&& ~~~0xF#64).toNat = top.toNat - top.toNat % 2 ^ 4 :=
    toNat_and_not_mask top (k := 4) (by omega)
  have husp : (TrapFrame.newUserArg (.ofBitVec entry) (.ofBitVec argvBase) (UInt64.ofNat args.length)
      (.ofBitVec argvBase)).usp.toNat = argvBase.toNat := rfl
  have hlt := (top &&& ~~~0xF#64).isLt
  rw [husp, pushPointers_eq hpointers, hlen, BitVec.toNat_sub, BitVec.toNat_ofNat]
  omega

theorem stackMapped_zero : StackMapped fun _ => some 0 := fun _ _ _ => rfl

/-- Two arguments leave the stack aligned. -/
theorem exec_stack_aligned_iff_two : ∃ (tf : TrapFrame) (argc : ℕ) (mem : Memory),
    (execArgs 0 (BitVec.ofNat 64 USER_STACK_TOP) ["ls", ""] fun _ => some 0).2 =
      .ok ((tf, argc), mem) ∧ tf.usp.toNat % 16 = 0 := by
  have hfit : stackSize ["ls", ""] ≤ USER_STACK_SIZE := by decide +kernel
  obtain ⟨argv, ptrs, mem, hexec, -⟩ :=
    execArgs_spec 0 (BitVec.ofNat 64 USER_STACK_TOP) (by decide) stackMapped_zero hfit
  exact ⟨_, _, mem, hexec, (exec_stack_aligned_iff hexec).mpr rfl⟩

/-- A single argument leaves it 8 bytes off. -/
theorem exec_stack_unaligned : ∃ (tf : TrapFrame) (argc : ℕ) (mem : Memory),
    (execArgs 0 (BitVec.ofNat 64 USER_STACK_TOP) ["ls"] fun _ => some 0).2 =
      .ok ((tf, argc), mem) ∧ tf.usp.toNat % 16 = 8 := by
  have hfit : stackSize ["ls"] ≤ USER_STACK_SIZE := by decide +kernel
  obtain ⟨argv, ptrs, mem, hexec, hargv, -⟩ :=
    execArgs_spec 0 (BitVec.ofNat 64 USER_STACK_TOP) (by decide) stackMapped_zero hfit
  refine ⟨_, _, mem, hexec, ?_⟩
  change argv.toNat % 16 = 8
  rw [hargv]
  decide +kernel

/-! What is written -/

/-- All bytes of the span lie between `lo` and `hi`. -/
def Inside (lo hi : ℕ) (s : Span) : Prop :=
  ∀ i < s.len, lo ≤ (s.byte i).toNat ∧ (s.byte i).toNat < hi

/-- `n` bytes below `top` reach down to `top - n`, and if that is below `lo`, they contain the
byte before `lo`. -/
theorem inside_below_iff (hpos : 0 < lo) (hlo : lo ≤ top.toNat) (hhi : top.toNat ≤ hi) :
    Inside lo hi ⟨top - BitVec.ofNat 64 n, n⟩ ↔ lo + n ≤ top.toNat := by
  have hlt := top.isLt
  have hbyte (i : ℕ) : (Span.byte ⟨top - BitVec.ofNat 64 n, n⟩ i).toNat =
      (2 ^ 64 - n % 2 ^ 64 + top.toNat + i) % 2 ^ 64 := by
    simp only [Span.byte, BitVec.toNat_add, BitVec.toNat_sub, BitVec.toNat_ofNat]
    omega
  constructor
  · intro h
    by_contra hout
    have hlast := h (n - (top.toNat - lo) - 1) (by dsimp only; omega)
    rw [hbyte] at hlast
    omega
  · intro hfit i hi
    dsimp only at hi
    rw [hbyte]
    omega

theorem pushCStr_inside_iff (hpos : 0 < lo) (hlo : lo ≤ ustackTop.toNat) (hhi : ustackTop.toNat ≤ hi) :
    All (Inside lo hi) (pushCStr ustackTop s) mem ↔ lo + (s.utf8ByteSize + 1) ≤ ustackTop.toNat := by
  rw [pushCStr, all_bind, all_store, List.length_append, length_asBytes, List.length_singleton,
    inside_below_iff hpos hlo hhi]
  exact and_iff_left fun _ _ _ => all_pure _ _ _

theorem pushStack_inside_iff (val : Usize) (hpos : 0 < lo) (hlo : lo ≤ ustackTop.toNat)
    (hhi : ustackTop.toNat ≤ hi) :
    All (Inside lo hi) (pushStack ustackTop val) mem ↔ lo + 8 ≤ ustackTop.toNat := by
  rw [pushStack, all_bind, all_store, length_leBytes]
  exact (and_iff_left fun _ _ _ => all_pure _ _ _).trans (inside_below_iff hpos hlo hhi)

/-- The strings are written inside, as long as there is room for all of them. -/
theorem pushStrings_inside_iff (hpos : 0 < lo) (hlo : lo ≤ ustackTop.toNat)
    (hhi : ustackTop.toNat ≤ hi) (hm : Mapped mem lo ustackTop.toNat) :
    All (Inside lo hi) (pushStrings ustackTop argvVec args) mem ↔
      lo + stringsSize args ≤ ustackTop.toNat := by
  induction args generalizing ustackTop argvVec mem with
  | nil => exact iff_of_true (all_pure _ _ _) hlo
  | cons s args ih =>
    rw [pushStrings, all_bind, pushCStr_inside_iff hpos hlo hhi, stringsSize_cons]
    constructor
    · rintro ⟨hroom, hrest⟩
      obtain ⟨ptr, mem₁, hpush, hend, -, hc⟩ := pushCStr_spec hroom hm
      have hm₁ := (hm.changed hc).mono (Nat.le_refl lo) (show ptr.toNat ≤ ustackTop.toNat by omega)
      have := (ih (by omega) (by omega) hm₁).mp (hrest ptr mem₁ hpush)
      omega
    · intro hroom
      have hroom₁ : lo + (s.utf8ByteSize + 1) ≤ ustackTop.toNat := by omega
      refine ⟨hroom₁, fun ptr' mem' hpush' => ?_⟩
      obtain ⟨ptr, mem₁, hpush, hend, -, hc⟩ := pushCStr_spec hroom₁ hm
      cases hpush.symm.trans hpush'
      have hm₁ := (hm.changed hc).mono (Nat.le_refl lo) (show ptr'.toNat ≤ ustackTop.toNat by omega)
      exact (ih (by omega) (by omega) hm₁).mpr (by omega)

theorem pushPointers_inside_iff (hpos : 0 < lo) (hlo : lo ≤ ustackTop.toNat)
    (hhi : ustackTop.toNat ≤ hi) (hm : Mapped mem lo ustackTop.toNat) :
    All (Inside lo hi) (pushPointers ustackTop argvVec) mem ↔
      lo + 8 * argvVec.length ≤ ustackTop.toNat := by
  induction argvVec generalizing ustackTop mem with
  | nil => exact iff_of_true (all_pure _ _ _) hlo
  | cons arg argvVec ih =>
    rw [pushPointers, all_bind, pushStack_inside_iff arg hpos hlo hhi, List.length_cons]
    constructor
    · rintro ⟨hroom, hrest⟩
      obtain ⟨ptr, mem₁, hpush, hend, -, hc⟩ := pushStack_spec arg hroom hm
      have hm₁ := (hm.changed hc).mono (Nat.le_refl lo) (show ptr.toNat ≤ ustackTop.toNat by omega)
      have := (ih (by omega) (by omega) hm₁).mp (hrest ptr mem₁ hpush)
      omega
    · intro hroom
      have hroom₁ : lo + 8 ≤ ustackTop.toNat := by omega
      refine ⟨hroom₁, fun ptr' mem' hpush' => ?_⟩
      obtain ⟨ptr, mem₁, hpush, hend, -, hc⟩ := pushStack_spec arg hroom₁ hm
      cases hpush.symm.trans hpush'
      have hm₁ := (hm.changed hc).mono (Nat.le_refl lo) (show ptr'.toNat ≤ ustackTop.toNat by omega)
      exact (ih (by omega) (by omega) hm₁).mpr (by omega)

/-- All that `exec` writes is on the stack, exactly if the arguments fit there. -/
theorem execArgs_inside_iff (entry : Usize) (hm : StackMapped mem) :
    All (Inside (userStack 0).1 (userStack 0).2)
        (execArgs entry (BitVec.ofNat 64 USER_STACK_TOP) args) mem ↔
      stackSize args ≤ USER_STACK_SIZE := by
  have hstack : (userStack 0).2 = USER_STACK_TOP := by decide
  have hbottom : (userStack 0).1 + USER_STACK_SIZE = USER_STACK_TOP := by decide
  have hpos : 0 < (userStack 0).1 := by decide
  have haligned : USER_STACK_TOP % 16 = 0 := by decide
  have hsize : USER_STACK_SIZE % 16 = 0 := by decide
  have htop : (BitVec.ofNat 64 USER_STACK_TOP).toNat = USER_STACK_TOP := by decide
  have hreverse := stringsSize_reverse args
  generalize BitVec.ofNat 64 USER_STACK_TOP = ustackTop at htop
  rw [StackMapped, hstack, ← htop] at hm
  rw [execArgs, all_bind, pushStrings_inside_iff hpos (by omega) (by omega) hm, hreverse, stackSize]
  -- below the strings, if they fit, are the pointers
  have hrest (hroom : (userStack 0).1 + stringsSize args ≤ ustackTop.toNat) :
      ∃ (top : Usize) (vec : List Usize) (mem₁ : Memory),
        (pushStrings ustackTop [] args.reverse mem).2 = .ok ((top, vec), mem₁) ∧
        (All (Inside (userStack 0).1 (userStack 0).2) (pushPointers (top &&& ~~~0xF#64) vec) mem₁ ↔
          (stringsSize args + 15) / 16 * 16 + 8 * args.length ≤ USER_STACK_SIZE) := by
    obtain ⟨top, vec, mem₁, hpush, htop₁, hlen, -, -, hc⟩ :=
      pushStrings_spec (hreverse.symm ▸ hroom) hm []
    rw [List.nil_append] at hpush
    rw [List.length_reverse] at hlen
    have halign : (top &&& ~~~0xF#64).toNat = top.toNat - top.toNat % 2 ^ 4 :=
      toNat_and_not_mask top (k := 4) (by omega)
    refine ⟨top, vec, mem₁, hpush, ?_⟩
    rw [pushPointers_inside_iff hpos (by omega) (by omega)
      ((hm.changed hc).mono (Nat.le_refl _) (by omega))]
    omega
  constructor
  · rintro ⟨hroom, hall⟩
    obtain ⟨top, vec, mem₁, hpush, hiff⟩ := hrest hroom
    have hpointers := hall _ _ hpush
    dsimp only at hpointers
    rw [all_bind] at hpointers
    exact hiff.mp hpointers.1
  · intro hfit
    have hroom : (userStack 0).1 + stringsSize args ≤ ustackTop.toNat := by omega
    obtain ⟨top, vec, mem₁, hpush, hiff⟩ := hrest hroom
    refine ⟨hroom, fun r mem₁' hpush' => ?_⟩
    cases hpush.symm.trans hpush'
    dsimp only
    rw [all_bind]
    exact ⟨hiff.mpr hfit, fun _ _ _ => all_pure _ _ _⟩

/-- For any arguments, `exec` writes to the stack only and does not fault there, exactly if
the strings with their zero bytes, up to a multiple of 16 bytes, and the pointers fit on the
stack. -/
theorem exec_inside_stack_iff (entry : Usize) (args : List String) (hm : StackMapped mem) :
    All (Inside (userStack 0).1 (userStack 0).2)
          (execArgs entry (BitVec.ofNat 64 USER_STACK_TOP) args) mem ∧
        (∃ (tf : TrapFrame) (argc : ℕ) (mem' : Memory),
          (execArgs entry (BitVec.ofNat 64 USER_STACK_TOP) args mem).2 = .ok ((tf, argc), mem')) ↔
      stackSize args ≤ USER_STACK_SIZE := by
  rw [execArgs_inside_iff entry hm]
  refine and_iff_left_of_imp fun hfit => ?_
  obtain ⟨argv, ptrs, mem', hexec, -⟩ :=
    execArgs_spec entry (BitVec.ofNat 64 USER_STACK_TOP) (by decide) hm hfit
  exact ⟨_, _, mem', hexec⟩

/-- Two arguments are far from filling the stack. -/
theorem exec_inside_stack_iff_two : StackMapped (fun _ => some 0) ∧
    All (Inside (userStack 0).1 (userStack 0).2)
      (execArgs 0 (BitVec.ofNat 64 USER_STACK_TOP) ["ls", ""]) fun _ => some 0 :=
  ⟨stackMapped_zero, ((exec_inside_stack_iff 0 ["ls", ""] stackMapped_zero).mpr (by decide +kernel)).1⟩

/-! What `sys_exec` can read -/

theorem read_word {v : Usize} (hpos : 0 < p.toNat) (hle : p.toNat + 8 ≤ 2 ^ 48)
    (halign : p.toNat % 8 = 0) (h : Has mem p (leBytes v)) :
    (UserPtr.read (T := Layout.usize) ⟨p⟩ mem).2 = .ok (leBytes v, mem) := by
  have hvalid : UserPtr.Valid Layout.usize p := ⟨hpos, hle, halign, by decide⟩
  exact hvalid.read h (length_leBytes v)

/-- A string in user memory is read as it is. -/
theorem readCStr_spec (hpos : 0 < ptr.toNat) (hle : ptr.toNat + (s.utf8ByteSize + 1) ≤ 2 ^ 48)
    (hnul : 0 ∉ asBytes s) (h : Has mem ptr (asBytes s ++ [0])) :
    (UserPtr.readCStr ⟨ptr⟩ mem).2 = .ok (.ok s, mem) := by
  have hlen := length_asBytes s
  have hsize : (BitVec.ofNat 64 s.utf8ByteSize).toNat = s.utf8ByteSize := by
    rw [BitVec.toNat_ofNat]
    omega
  have hfuel : (asBytes s).length < UserPtr.ADDRESSES := by
    rw [UserPtr.ADDRESSES]
    omega
  have hvalid : UserPtr.Valid .u8 ptr :=
    ⟨hpos, show ptr.toNat + 1 ≤ _ by omega, Nat.mod_one _, Nat.one_pos⟩
  -- an empty slice is at address 0
  have hslice : ∃ slice, (UserPtr.asSlice (T := .u8) ⟨ptr⟩ (BitVec.ofNat 64 s.utf8ByteSize) mem).2 =
      .ok (slice, mem) ∧ (load slice mem).2 = .ok (asBytes s, mem) := by
    by_cases hempty : BitVec.ofNat 64 s.utf8ByteSize = 0
    · have hnil : asBytes s = [] := by
        rw [← List.length_eq_zero_iff, hlen, ← hsize, hempty]
        rfl
      refine ⟨⟨0, 0⟩, ?_, by rw [hnil]; rfl⟩
      rw [UserPtr.asSlice, if_pos hempty]
      rfl
    · have hok : uaccessOk ptr (BitVec.ofNat 64 s.utf8ByteSize) = true :=
        uaccessOk_of_le hpos (by omega)
      refine ⟨⟨ptr, s.utf8ByteSize⟩, ?_, hlen ▸ load_spec h.left⟩
      rw [UserPtr.asSlice, if_neg hempty, uassert_bind, if_pos hok, hsize, Layout.u8, Nat.mul_one]
      rfl
  obtain ⟨slice, hslice, hload⟩ := hslice
  rw [UserPtr.readCStr, UserPtr.asCStr, bind_of_ok (find_spec h hnul hfuel), hlen, UserPtr.asStr,
    uassert_bind, if_pos hvalid.check, bind_of_ok hslice, bind_of_ok hload, fromUTF8_asBytes]
  rfl

/-- Strings in user memory, with an array of the pointers to them that ends with a null
pointer, are what `read_argvs` returns. -/
theorem readArgvsLoop_spec {argv : Usize} (i : ℕ) (hargv : 0 < argv.toNat) (halign : argv.toNat % 8 = 0)
    (hend : argv.toNat + 8 * (i + args.length + 1) ≤ 2 ^ 48) (hn : args.length < n)
    (hwords : Has mem (argv + BitVec.ofNat 64 i * 8) (words (ptrs ++ [0])))
    (hstrs : List.Forall₂ (StringAt mem 1 (2 ^ 48)) ptrs args) (hnul : ∀ s ∈ args, 0 ∉ asBytes s) :
    (readArgvsLoop argv n i mem).2 = .ok (args, mem) := by
  have hat (j : ℕ) (hj : j ≤ i + args.length) :
      (argv + BitVec.ofNat 64 j * 8).toNat = argv.toNat + 8 * j := by
    rw [BitVec.toNat_add, BitVec.toNat_mul, BitVec.toNat_ofNat, show (8 : Usize).toNat = 8 from rfl]
    omega
  have hi := hat i (Nat.le_add_right _ _)
  induction hstrs generalizing i n with
  | nil =>
    obtain ⟨n, rfl⟩ := Nat.exists_eq_add_one.mpr hn
    rw [List.nil_append, words, List.flatMap_singleton] at hwords
    have hread := read_word (by omega) (by omega) (by omega) hwords
    rw [readArgvsLoop, bind_of_ok hread, ofLeBytes_leBytes, if_pos rfl]
    rfl
  | @cons ptr s ptrs args hstr _ ih =>
    rw [List.length_cons] at hend hn hat
    obtain ⟨n, rfl⟩ := Nat.exists_eq_add_one.mpr (Nat.zero_lt_of_lt hn)
    have hread := read_word (by omega) (by omega) (by omega) hwords.left
    have hptr : ptr ≠ 0 := by
      rintro rfl
      exact absurd hstr.lo_le (by decide)
    have hnext : argv + BitVec.ofNat 64 i * 8 + BitVec.ofNat 64 (leBytes ptr).length =
        argv + BitVec.ofNat 64 (i + 1) * 8 := by
      rw [length_leBytes, BitVec.ofNat_add, BitVec.add_mul, ← BitVec.add_assoc]
      rfl
    have hstring := readCStr_spec hstr.lo_le hstr.le_hi (hnul s List.mem_cons_self) hstr.has
    have hrest : (readArgvsLoop argv n (i + 1) mem).2 = .ok (args, mem) :=
      ih (i + 1) (by omega) (by omega) (hnext ▸ hwords.right)
      (fun s hs => hnul s (List.mem_cons_of_mem _ hs)) (fun j hj => hat j (by omega))
      (hat (i + 1) (by omega))
    rw [readArgvsLoop, bind_of_ok hread, ofLeBytes_leBytes, if_neg hptr, bind_of_ok hstring]
    dsimp only
    rw [bind_of_ok hrest]
    rfl

/-- An array of 2000 pointers to an empty string. -/
theorem exec_below_stack : ∃ (mem₀ : Memory) (argv : Usize) (args : List String),
    (readArgvs argv mem₀).2 = .ok (args, mem₀) ∧ StackMapped mem₀ ∧
    ¬ All (Inside (userStack 0).1 (userStack 0).2)
      (execArgs 0 (BitVec.ofNat 64 USER_STACK_TOP) args) mem₀ := by
  let ptrs : List Usize := List.replicate 2000 0x10
  let mem₀ : Memory := Memory.write (fun _ => some 0) 0x1000 (words (ptrs ++ [0]))
  have hlen : (words (ptrs ++ [0])).length = 16008 := by
    rw [length_words, List.length_append, List.length_replicate, List.length_singleton]
  have hc : Changed (fun _ => some 0) mem₀ (0x1000 : Usize).toNat _ :=
    write_changed _ 0x1000 (words (ptrs ++ [0])) (by rw [hlen]; decide)
  have hwords : Has mem₀ 0x1000 (words (ptrs ++ [0])) := write_has _ _ _ (by rw [hlen]; decide)
  have hm : StackMapped mem₀ := fun p hp hp' => hc.mapped p rfl
  have hempty : StringAt mem₀ 1 (2 ^ 48) 0x10 "" :=
    ⟨by decide, by decide, hc.outside 0x10 (.inl (by decide)), trivial⟩
  have hstrs : List.Forall₂ (StringAt mem₀ 1 (2 ^ 48)) ptrs (List.replicate 2000 "") := by
    rw [List.forall₂_iff_get]
    refine ⟨by rw [List.length_replicate, List.length_replicate], fun i hi hi' => ?_⟩
    rw [List.get_eq_getElem, List.get_eq_getElem, List.getElem_replicate, List.getElem_replicate]
    exact hempty
  have hnul : ∀ s ∈ List.replicate 2000 "", 0 ∉ asBytes s := by
    intro s hs
    rw [List.eq_of_mem_replicate hs]
    decide +kernel
  have hstrings : stringsSize (List.replicate 2000 "") = 2000 := by
    rw [stringsSize, List.map_replicate, List.sum_replicate]
    rfl
  refine ⟨mem₀, 0x1000, List.replicate 2000 "", ?_, hm, ?_⟩
  · have hwords₀ : Has mem₀ (0x1000 + BitVec.ofNat 64 0 * 8) (words (ptrs ++ [0])) := hwords
    refine readArgvsLoop_spec 0 (by decide) (by decide) ?_ ?_ hwords₀ hstrs hnul
    · rw [List.length_replicate]
      decide
    · rw [List.length_replicate]
      decide
  · rw [execArgs_inside_iff 0 hm, stackSize, hstrings, List.length_replicate]
    decide

end RCore.Os
