import RCore.Lib.Extent
import RCore.Sanity.Mm.Memory
import RCore.Spec.Os.Exec

/-! The arguments of a program survive `exec`: what `Process::exec` puts on the user stack is
what `_start` takes from there. -/

namespace RCore.Os

open RCore.Lib RCore.Mm Logged Memory

variable {mem mem' : Memory} {p q ptr ustackTop : Usize} {s : String} {args : List String}
  {ptrs argvVec : List Usize} {lo hi : ℕ}

/-! Words and strings as bytes -/

theorem length_leBytes (v : Usize) : (leBytes v).length = 8 := by
  rw [leBytes, List.length_map, List.length_range]

theorem ofLeBytes_leBytes (v : Usize) : ofLeBytes (leBytes v) = v := by
  apply BitVec.eq_of_toNat_eq
  have hlt := v.isLt
  simp only [ofLeBytes, leBytes, List.range_succ, List.range_zero, List.nil_append,
    List.cons_append, List.map_cons, List.map_nil, UInt8.toNat_ofNat', Nat.ofDigits_cons,
    Nat.ofDigits_nil, BitVec.toNat_ofNat]
  omega

theorem length_asBytes (s : String) : (asBytes s).length = s.utf8ByteSize := rfl

theorem fromUTF8_asBytes (s : String) : String.fromUTF8? ⟨(asBytes s).toArray⟩ = some s := by
  rw [asBytes, Array.toArray_toList]
  exact dif_pos s.isValidUTF8

/-- The pointers as they stand in memory. -/
def words (ptrs : List Usize) : List UInt8 := ptrs.flatMap leBytes

theorem length_words (ptrs : List Usize) : (words ptrs).length = 8 * ptrs.length := by
  rw [words, List.length_flatMap, List.map_congr_left fun v _ => length_leBytes v,
    List.map_const', List.sum_replicate, smul_eq_mul, Nat.mul_comm]

/-- The bytes of the strings, each with the zero byte at its end. -/
def stringsSize (args : List String) : ℕ := (args.map fun arg => arg.utf8ByteSize + 1).sum

/-- What the arguments take of the stack: the strings, up to a multiple of 16 bytes, and the
pointers to them. -/
def stackSize (args : List String) : ℕ := (stringsSize args + 15) / 16 * 16 + 8 * args.length

/-- A string with its zero byte, between `lo` and `hi`. -/
structure StringAt (mem : Memory) (lo hi : ℕ) (ptr : Usize) (s : String) : Prop where
  lo_le : lo ≤ ptr.toNat
  le_hi : ptr.toNat + (s.utf8ByteSize + 1) ≤ hi
  has : Has mem ptr (asBytes s ++ [0])

/-- The bytes of a string with its zero byte. -/
def stringExtent (ptr : Usize) (s : String) : Extent := ⟨ptr.toNat, s.utf8ByteSize + 1⟩

theorem toNat_sub_of_le {n : ℕ} (h : n ≤ p.toNat) : (p - BitVec.ofNat 64 n).toNat = p.toNat - n := by
  have hlt := p.isLt
  rw [BitVec.toNat_sub, BitVec.toNat_ofNat]
  omega

namespace StringAt

theorem changed {lo' hi' : ℕ} (h : StringAt mem lo hi ptr s) (hhi : hi < 2 ^ 64)
    (hc : Changed mem mem' lo' hi') (hle : hi' ≤ lo) : StringAt mem' lo hi ptr s := by
  refine ⟨h.lo_le, h.le_hi, h.has.changed ?_ hc (.inr (hle.trans h.lo_le))⟩
  rw [List.length_append, length_asBytes, List.length_singleton]
  exact h.le_hi.trans_lt hhi

theorem mono {lo' hi' : ℕ} (h : StringAt mem lo hi ptr s) (hlo : lo' ≤ lo) (hhi : hi ≤ hi') :
    StringAt mem lo' hi' ptr s :=
  ⟨hlo.trans h.lo_le, h.le_hi.trans hhi, h.has⟩

end StringAt

/-! What `exec` pushes -/

theorem pushCStr_spec (hroom : lo + (s.utf8ByteSize + 1) ≤ ustackTop.toNat)
    (hm : Mapped mem lo ustackTop.toNat) :
    ∃ ptr mem', (pushCStr ustackTop s mem).2 = .ok (ptr, mem') ∧
      ptr.toNat + (s.utf8ByteSize + 1) = ustackTop.toNat ∧
      StringAt mem' ptr.toNat ustackTop.toNat ptr s ∧
      Changed mem mem' ptr.toNat ustackTop.toNat := by
  have hlt := ustackTop.isLt
  have hptr := toNat_sub_of_le (p := ustackTop) (n := s.utf8ByteSize + 1) (by omega)
  set ptr := ustackTop - BitVec.ofNat 64 (s.utf8ByteSize + 1) with hdef
  have hlen : (asBytes s ++ [0]).length = s.utf8ByteSize + 1 := by
    rw [List.length_append, length_asBytes, List.length_singleton]
  have hend : ptr.toNat + (s.utf8ByteSize + 1) = ustackTop.toNat := by omega
  have hm' : Mapped mem ptr.toNat (ptr.toNat + (asBytes s ++ [0]).length) :=
    hm.mono (by omega) (by omega)
  obtain ⟨mem', hstore, hhas, hc⟩ := store_spec hm' (by omega)
  rw [hlen, hend] at hc
  refine ⟨ptr, mem', ?_, hend, ⟨Nat.le_refl _, hend.le, hhas⟩, hc⟩
  rw [pushCStr, bind_of_ok hstore]
  rfl

theorem stringsSize_cons (s : String) (args : List String) :
    stringsSize (s :: args) = s.utf8ByteSize + 1 + stringsSize args := rfl

/-- The strings lie one below the other, in the order in which they are pushed. -/
theorem pushStrings_spec (hroom : lo + stringsSize args ≤ ustackTop.toNat)
    (hm : Mapped mem lo ustackTop.toNat) (argvVec : List Usize) :
    ∃ top ptrs mem', (pushStrings ustackTop argvVec args mem).2 = .ok ((top, argvVec ++ ptrs), mem') ∧
      top.toNat + stringsSize args = ustackTop.toNat ∧ ptrs.length = args.length ∧
      List.Forall₂ (StringAt mem' top.toNat ustackTop.toNat) ptrs args ∧
      Tiles top.toNat ustackTop.toNat (List.zipWith stringExtent ptrs args).reverse ∧
      Changed mem mem' top.toNat ustackTop.toNat := by
  induction args generalizing ustackTop mem argvVec with
  | nil =>
    refine ⟨ustackTop, [], mem, ?_, rfl, rfl, .nil, rfl, .refl _ _ _⟩
    rw [List.append_nil]
    rfl
  | cons s args ih =>
    rw [stringsSize_cons] at hroom
    have hlt := ustackTop.isLt
    have hroom₁ : lo + (s.utf8ByteSize + 1) ≤ ustackTop.toNat := by omega
    obtain ⟨ptr, mem₁, hpush, hend, hstr, hc⟩ := pushCStr_spec hroom₁ hm
    have hroom₂ : lo + stringsSize args ≤ ptr.toNat := by omega
    obtain ⟨top, ptrs, mem₂, hpushes, htop, hlen, hstrs, htiles, hc'⟩ :=
      ih hroom₂ ((hm.changed hc).mono (Nat.le_refl lo) (by omega)) (argvVec ++ [ptr])
    refine ⟨top, ptr :: ptrs, mem₂, ?_, ?_, congrArg (· + 1) hlen, .cons ?_ ?_, ?_, ?_⟩
    · rw [pushStrings, bind_of_ok hpush, hpushes, List.append_assoc, List.singleton_append]
    · rw [stringsSize_cons]
      omega
    · exact (hstr.changed hlt hc' (Nat.le_refl _)).mono (by omega) (Nat.le_refl _)
    · exact hstrs.imp fun _ _ h => h.mono (Nat.le_refl _) (by omega)
    · rw [List.zipWith_cons_cons, List.reverse_cons]
      exact htiles.append ⟨rfl, hend⟩
    · exact (hc.mono (by omega) (Nat.le_refl _)).trans (hc'.mono (Nat.le_refl _) (by omega))

theorem pushStack_spec (val : Usize) (hroom : lo + 8 ≤ ustackTop.toNat)
    (hm : Mapped mem lo ustackTop.toNat) :
    ∃ p mem', (pushStack ustackTop val mem).2 = .ok (p, mem') ∧ p.toNat + 8 = ustackTop.toNat ∧
      Has mem' p (leBytes val) ∧ Changed mem mem' p.toNat ustackTop.toNat := by
  have hlt := ustackTop.isLt
  have hp := toNat_sub_of_le (p := ustackTop) (n := 8) (by omega)
  set p := ustackTop - 8 with hdef
  replace hp : p.toNat = ustackTop.toNat - 8 := hp
  have hlen := length_leBytes val
  have hm' : Mapped mem p.toNat (p.toNat + (leBytes val).length) := hm.mono (by omega) (by omega)
  obtain ⟨mem', hstore, hhas, hc⟩ := store_spec hm' (by omega)
  refine ⟨p, mem', ?_, by omega, hhas, hc.mono (Nat.le_refl _) (by omega)⟩
  rw [pushStack, bind_of_ok hstore]
  rfl

/-- The last pointer that is pushed is the first one in memory. -/
theorem pushPointers_spec (hroom : lo + 8 * argvVec.length ≤ ustackTop.toNat)
    (hm : Mapped mem lo ustackTop.toNat) :
    ∃ base mem', (pushPointers ustackTop argvVec mem).2 = .ok (base, mem') ∧
      base.toNat + 8 * argvVec.length = ustackTop.toNat ∧ Has mem' base (words argvVec.reverse) ∧
      Changed mem mem' base.toNat ustackTop.toNat := by
  induction argvVec generalizing ustackTop mem with
  | nil => exact ⟨ustackTop, mem, rfl, rfl, trivial, .refl _ _ _⟩
  | cons arg argvVec ih =>
    rw [List.length_cons] at hroom
    have hlt := ustackTop.isLt
    have hroom₁ : lo + 8 ≤ ustackTop.toNat := by omega
    obtain ⟨p, mem₁, hpush, hend, hhas, hc⟩ := pushStack_spec arg hroom₁ hm
    have hroom₂ : lo + 8 * argvVec.length ≤ p.toNat := by omega
    obtain ⟨base, mem₂, hpushes, hbase, hwords, hc'⟩ :=
      ih hroom₂ ((hm.changed hc).mono (Nat.le_refl lo) (by omega))
    have hlen := length_leBytes arg
    refine ⟨base, mem₂, ?_, ?_, ?_, ?_⟩
    · rw [pushPointers, bind_of_ok hpush, hpushes]
    · rw [List.length_cons]
      omega
    · have hp : base + BitVec.ofNat 64 (words argvVec.reverse).length = p := by
        apply BitVec.eq_of_toNat_eq
        rw [BitVec.toNat_add, BitVec.toNat_ofNat, length_words, List.length_reverse]
        omega
      rw [List.reverse_cons, words, List.flatMap_append, List.flatMap_singleton]
      refine hwords.append ?_
      rw [hp]
      exact hhas.changed (by omega) hc' (.inr (Nat.le_refl _))
    · exact (hc.mono (by omega) (Nat.le_refl _)).trans (hc'.mono (Nat.le_refl _) (by omega))

/-! What `_start` takes from there -/

theorem readWord_spec {v : Usize} (h : Has mem p (leBytes v)) :
    (readWord p mem).2 = .ok (v, mem) := by
  have hload := load_spec h
  rw [length_leBytes] at hload
  rw [readWord, bind_of_ok hload, ofLeBytes_leBytes]
  rfl

theorem startArgs_spec {argv : Usize} (i : ℕ)
    (hwords : Has mem (argv + BitVec.ofNat 64 i * 8) (words ptrs))
    (hstrs : List.Forall₂ (fun ptr s => Has mem ptr (asBytes s ++ [0])) ptrs args)
    (hnul : ∀ s ∈ args, 0 ∉ asBytes s) (hlen : ∀ s ∈ args, s.utf8ByteSize < UserPtr.ADDRESSES) :
    (startArgs argv args.length i mem).2 = .ok (args, mem) := by
  induction hstrs generalizing i with
  | nil => rfl
  | @cons ptr s ptrs args hstr _ ih =>
    have hfind := find_spec hstr (hnul s List.mem_cons_self) (hlen s List.mem_cons_self)
    have hnext : argv + BitVec.ofNat 64 i * 8 + BitVec.ofNat 64 (leBytes ptr).length =
        argv + BitVec.ofNat 64 (i + 1) * 8 := by
      rw [length_leBytes, BitVec.ofNat_add, BitVec.add_mul, ← BitVec.add_assoc]
      rfl
    have hrest := ih (i + 1) (hnext ▸ hwords.right) (fun s hs => hnul s (List.mem_cons_of_mem _ hs))
      fun s hs => hlen s (List.mem_cons_of_mem _ hs)
    rw [List.length_cons, startArgs, bind_of_ok (readWord_spec hwords.left), bind_of_ok hfind,
      bind_of_ok (load_spec hstr.left), fromUTF8_asBytes]
    dsimp only
    rw [bind_of_ok hrest]
    rfl

/-! Both together -/

/-- The stack of a task of `tid` 0 is mapped. -/
def StackMapped (mem : Memory) : Prop := Mapped mem (userStack 0).1 (userStack 0).2

/-- The arguments are on the stack: an array of pointers at `argv`, and the strings to which
they point, which do not overlap. -/
structure ArgsOnStack (mem : Memory) (argv : Usize) (args : List String) (ptrs : List Usize) :
    Prop where
  pointers : Has mem argv (words ptrs)
  strings : List.Forall₂ (fun ptr s => Has mem ptr (asBytes s ++ [0])) ptrs args
  disjoint : (⟨argv.toNat, 8 * args.length⟩ :: List.zipWith stringExtent ptrs args).Pairwise
    fun e e' => Disjoint e.range e'.range
  inside : ∀ e ∈ ⟨argv.toNat, 8 * args.length⟩ :: List.zipWith stringExtent ptrs args,
    (userStack 0).1 ≤ e.start ∧ e.finish ≤ (userStack 0).2

theorem stringsSize_reverse (args : List String) : stringsSize args.reverse = stringsSize args := by
  rw [stringsSize, List.map_reverse, List.sum_reverse, stringsSize]

theorem argvBase_eq (ustackTop : ℕ) (args : List String) :
    Kernel.argvBase ustackTop args = (ustackTop - stringsSize args) / 16 * 16 - 8 * args.length := by
  have hfold : ∀ (args : List String) (top : ℕ),
      args.foldl (fun top arg => top - (arg.utf8ByteSize + 1)) top = top - stringsSize args := by
    intro args
    induction args with
    | nil => exact fun top => rfl
    | cons s args ih =>
      intro top
      rw [List.foldl_cons, ih, stringsSize_cons, Nat.sub_sub]
  rw [Kernel.argvBase, hfold, stringsSize_reverse]

/-- `exec` leaves the registers that the model of the kernel gives the task, and the
arguments on the stack. -/
theorem execArgs_spec (entry ustackTop : Usize) (htop : ustackTop.toNat = USER_STACK_TOP)
    (hm : StackMapped mem) (hfit : stackSize args ≤ USER_STACK_SIZE) :
    ∃ (argv : Usize) (ptrs : List Usize) (mem' : Memory), (execArgs entry ustackTop args mem).2 =
        .ok ((.newUserArg (.ofBitVec entry) (.ofBitVec argv) (UInt64.ofNat args.length)
          (.ofBitVec argv), args.length), mem') ∧
      argv.toNat = Kernel.argvBase USER_STACK_TOP args ∧ ArgsOnStack mem' argv args ptrs ∧
      Changed mem mem' (userStack 0).1 (userStack 0).2 := by
  have hstack : (userStack 0).2 = USER_STACK_TOP := by decide
  have hbottom : (userStack 0).1 + USER_STACK_SIZE = USER_STACK_TOP := by decide
  have haligned : USER_STACK_TOP % 16 = 0 := by decide
  have hsize : USER_STACK_SIZE % 16 = 0 := by decide
  have hbase := argvBase_eq USER_STACK_TOP args
  rw [StackMapped, hstack, ← htop] at hm
  rw [stackSize] at hfit
  have hreverse := stringsSize_reverse args
  have hroom : (userStack 0).1 + stringsSize args.reverse ≤ ustackTop.toNat := by omega
  obtain ⟨top, vec, mem₁, hpush, htop₁, hlen, hstrs, htiles, hc₁⟩ := pushStrings_spec hroom hm []
  rw [List.nil_append] at hpush
  rw [List.length_reverse] at hlen
  -- the pointers are below the strings, at a multiple of 16
  have halign : (top &&& ~~~0xF#64).toNat = top.toNat - top.toNat % 2 ^ 4 :=
    toNat_and_not_mask top (k := 4) (by omega)
  have hroom' : (userStack 0).1 + 8 * vec.length ≤ (top &&& ~~~0xF#64).toNat := by omega
  obtain ⟨argv, mem₂, hpush', hargv, hwords, hc₂⟩ :=
    pushPointers_spec hroom' ((hm.changed hc₁).mono (Nat.le_refl _) (by omega))
  rw [List.reverse_zipWith (by rw [hlen, List.length_reverse]), List.reverse_reverse] at htiles
  refine ⟨argv, vec.reverse, mem₂, ?_, by omega, ⟨hwords, ?_, ?_, ?_⟩, ?_⟩
  · rw [execArgs, bind_of_ok hpush]
    dsimp only
    rw [bind_of_ok hpush']
    rfl
  · rw [← List.reverse_reverse args, List.forall₂_reverse_iff]
    exact hstrs.imp fun ptr s h => (h.changed ustackTop.isLt hc₂ (by omega)).has
  · refine .cons (fun e he => Extent.disjoint_of_le ?_) htiles.pairwise_disjoint
    have hstart := htiles.start_le e he
    change argv.toNat + 8 * args.length ≤ e.start
    omega
  · intro e he
    rcases List.mem_cons.mp he with rfl | he
    · change _ ≤ argv.toNat ∧ argv.toNat + 8 * args.length ≤ _
      omega
    · have hstart := htiles.start_le e he
      have hfinish := htiles.finish_le e he
      omega
  · exact (hc₁.mono (by omega) (by omega)).trans (hc₂.mono (by omega) (by omega))

@[simp] theorem TrapFrame.r0_setR0 (tf : TrapFrame) (value : UInt64) : (tf.setR0 value).r0 = value :=
  Vector.getElem_set_self _

@[simp] theorem TrapFrame.r1_setR0 (tf : TrapFrame) (value : UInt64) : (tf.setR0 value).r1 = tf.r1 :=
  Vector.getElem_set_ne (by decide) (by decide) (by decide)

@[simp] theorem TrapFrame.r1_newUserArg (entry ustackTop arg0 arg1 : UInt64) :
    (newUserArg entry ustackTop arg0 arg1).r1 = arg1 :=
  Vector.getElem_set_self _

theorem stringsSize_le {s : String} (h : s ∈ args) : s.utf8ByteSize + 1 ≤ stringsSize args :=
  List.single_le_sum (fun _ _ => Nat.zero_le _) _ (List.mem_map_of_mem h)

/-- Arguments without zero bytes that fit on the stack come out of `_start` as they went into
`exec`. The return value of the system call goes to the register of `argc`. -/
theorem args_survive_exec (entry : Usize) (hm : StackMapped mem) (hnul : ∀ s ∈ args, 0 ∉ asBytes s)
    (hfit : stackSize args ≤ USER_STACK_SIZE) :
    ∃ (tf : TrapFrame) (ret : ℕ) (mem' : Memory) (ptrs : List Usize),
      (execArgs entry (BitVec.ofNat 64 USER_STACK_TOP) args mem).2 = .ok ((tf, ret), mem') ∧
      (start (tf.setR0 (UInt64.ofInt ret)).r0 (tf.setR0 (UInt64.ofInt ret)).r1 mem').2 =
        .ok ((args.length, args), mem') ∧
      tf.usp = tf.r1 ∧ tf.usp = UInt64.ofNat (Kernel.argvBase USER_STACK_TOP args) ∧
      ArgsOnStack mem' tf.r1.toBitVec args ptrs ∧ Changed mem mem' (userStack 0).1 (userStack 0).2 := by
  obtain ⟨argv, ptrs, mem', hexec, hargv, hargs, hc⟩ :=
    execArgs_spec entry (BitVec.ofNat 64 USER_STACK_TOP) (by decide) hm hfit
  have hlen : args.length < 2 ^ 64 := by
    rw [stackSize, show USER_STACK_SIZE = 2 ^ 14 from rfl] at hfit
    omega
  have hargc : (UInt64.ofInt args.length).toNat = args.length := by
    have hmod : ((args.length : ℤ) % 2 ^ 64).toNat = args.length := by omega
    rw [UInt64.ofInt, hmod, UInt64.toNat_ofNat_of_lt' hlen]
  have hwords : Has mem' (argv + BitVec.ofNat 64 0 * 8) (words ptrs) := by
    rw [BitVec.zero_mul, BitVec.add_zero]
    exact hargs.pointers
  have hstart := startArgs_spec 0 hwords hargs.strings hnul fun s hs => by
    have hle := stringsSize_le hs
    rw [stackSize, show USER_STACK_SIZE = 2 ^ 14 from rfl] at hfit
    rw [UserPtr.ADDRESSES]
    omega
  refine ⟨_, args.length, mem', ptrs, hexec, ?_, ?_, ?_, ?_, hc⟩
  · rw [TrapFrame.r0_setR0, TrapFrame.r1_setR0, TrapFrame.r1_newUserArg, start, hargc,
      bind_of_ok hstart]
    rfl
  · rw [TrapFrame.r1_newUserArg]
    rfl
  · rw [← hargv]
    exact UInt64.toNat_inj.mp (by simp [TrapFrame.newUserArg, TrapFrame.newUser])
  · rw [TrapFrame.r1_newUserArg]
    exact hargs

/-- Two arguments, on a stack that is all zero. -/
theorem args_survive_exec_two : ∃ (tf : TrapFrame) (ret : ℕ) (mem : Memory),
    (execArgs 0 (BitVec.ofNat 64 USER_STACK_TOP) ["ls", ""] fun _ => some 0).2 =
      .ok ((tf, ret), mem) ∧
    (start (tf.setR0 (UInt64.ofInt ret)).r0 (tf.setR0 (UInt64.ofInt ret)).r1 mem).2 =
      .ok ((2, ["ls", ""]), mem) := by
  have hm : StackMapped fun _ => some 0 := fun _ _ _ => rfl
  have hnul : ∀ s ∈ ["ls", ""], 0 ∉ asBytes s := by decide +kernel
  obtain ⟨tf, ret, mem, _, hexec, hstart, -⟩ := args_survive_exec 0 hm hnul (by decide +kernel)
  exact ⟨tf, ret, mem, hexec, hstart⟩

end RCore.Os
