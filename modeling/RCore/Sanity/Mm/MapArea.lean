import RCore.Sanity.Mm.PageTable
import RCore.Spec.Mm.MemorySet

/-! An area has a frame for each of its pages, from when it is mapped until it is unmapped. -/

namespace RCore.Mm

open RCore.Lib

namespace MapArea

/-- The frames of an area that maps its pages to frames of its own. -/
def entries (area : MapArea) : List (VirtAddr × PhysFrame) :=
  match area.mapper with
  | .offset _ => []
  | .framed frames => frames.entries

def frame (area : MapArea) (v : VirtAddr) : Option PhysFrame :=
  match area.mapper with
  | .offset _ => none
  | .framed frames => frames.get? v

def frames (area : MapArea) : List ℕ := area.entries.map fun e => e.2.number

/-- What is in the page at an address. One that has no frame yet will be given one that is
cleared. -/
def content (area : MapArea) (m : Machine) (v : VirtAddr) : Frame := (area.frame v).elim 0 fun f => m.memory f.number

/-- What the entries of a page table say about the area when it is mapped. -/
def leaves (area : MapArea) : List (Page × PhysAddr × MemFlags) :=
  area.entries.map fun e => (e.1.page, e.2.startPaddr, area.flags)

def Framed (area : MapArea) : Prop := ∃ frames, area.mapper = .framed frames

/-- The `k`-th page. -/
def addr (area : MapArea) (k : ℕ) : VirtAddr := ⟨area.start.bits + BitVec.ofNat 64 (k * 4096)⟩

/-- The end of the area is an address. -/
def Fits (area : MapArea) : Prop := area.start.bits.toNat + area.size.toNat < 2 ^ 64

instance (area : MapArea) : Decidable area.Fits := inferInstanceAs (Decidable (_ < _))

/-- Only the frames differ. -/
structure Same (area area' : MapArea) : Prop where
  start : area'.start = area.start
  size : area'.size = area.size
  flags : area'.flags = area.flags
  framed : area'.Framed

variable {area area' area₀ : MapArea} {m m' : Machine} {others : Set ℕ} {u v : VirtAddr} {f : PhysFrame} {k j : ℕ}

theorem Same.trans {area₁ : MapArea} (h : Same area area') (h' : Same area' area₁) : Same area area₁ :=
  ⟨h'.start.trans h.start, h'.size.trans h.size, h'.flags.trans h.flags, h'.framed⟩

theorem Same.refl (h : area.Framed) : Same area area := ⟨rfl, rfl, rfl, h⟩

theorem Same.addr (h : Same area area') (k : ℕ) : area'.addr k = area.addr k := by
  rw [MapArea.addr, h.start, MapArea.addr]

theorem Same.pages (h : Same area area') : area'.pages = area.pages := by
  rw [MapArea.pages, h.size, MapArea.pages]

theorem Same.fits_iff (h : Same area area') : area'.Fits ↔ area.Fits := by
  rw [Fits, Fits, h.start, h.size]

theorem frame_eq_some : area.frame v = some f ↔ (v, f) ∈ area.entries := by
  rw [frame, entries]
  split
  · exact iff_of_false (Option.some_ne_none f).symm List.not_mem_nil
  · exact OrdMap.get?_eq_some

theorem frame_mem (hf : area.frame v = some f) : f.number ∈ area.frames :=
  List.mem_map.mpr ⟨_, frame_eq_some.mp hf, rfl⟩

theorem content_of_frame (hf : area.frame v = some f) (m : Machine) : area.content m v = m.memory f.number := by
  rw [content, hf, Option.elim_some]

theorem content_of_none (hf : area.frame v = none) (m : Machine) : area.content m v = 0 := by
  rw [content, hf, Option.elim_none]

/-- The content is that of the frames. -/
theorem content_congr (h : ∀ f ∈ area.frames, m'.memory f = m.memory f) : area.content m' = area.content m := by
  funext u
  cases hu : area.frame u with
  | none => rw [content_of_none hu, content_of_none hu]
  | some g => rw [content_of_frame hu, content_of_frame hu, h _ (frame_mem hu)]

theorem keys_nodup (area : MapArea) : (area.entries.map Prod.fst).Nodup := by
  rw [entries]
  split
  · exact List.nodup_nil
  · exact OrdMap.keys_nodup _

/-! The addresses of the pages -/

theorem pages_mul (area : MapArea) : area.pages * 4096 = area.size.toNat := by
  have := (isAligned_iff area.size).mp area.size_aligned
  rw [pages, toNat_PAGE_SIZE]
  omega

theorem addr_zero (area : MapArea) : area.addr 0 = area.start := by
  rw [addr, Nat.zero_mul]
  exact congrArg VirtAddr.mk (BitVec.add_zero _)

theorem addr_succ (area : MapArea) (k : ℕ) : (area.addr (k + 1)).bits = (area.addr k).bits + PAGE_SIZE := by
  rw [addr, addr, Nat.add_mul, BitVec.ofNat_add, ← BitVec.add_assoc]
  rfl

theorem toNat_addr (h : area.Fits) (hk : k ≤ area.pages) :
    (area.addr k).bits.toNat = area.start.bits.toNat + k * 4096 := by
  have hsize := area.pages_mul
  have hlt : area.start.bits.toNat + area.size.toNat < 2 ^ 64 := h
  rw [addr, BitVec.toNat_add, BitVec.toNat_ofNat]
  omega

theorem addr_inj (h : area.Fits) (hj : j ≤ area.pages) (hk : k ≤ area.pages) (he : area.addr j = area.addr k) :
    j = k := by
  have hbits := congrArg (fun v : VirtAddr => v.bits.toNat) he
  rw [toNat_addr h hj, toNat_addr h hk] at hbits
  omega

theorem addr_aligned (area : MapArea) (k : ℕ) : (area.addr k).isAligned = true := by
  have := (isAligned_iff area.start.bits).mp area.start_aligned
  rw [VirtAddr.isAligned, isAligned_iff, addr, BitVec.toNat_add, BitVec.toNat_ofNat]
  omega

theorem toNat_stop (h : area.Fits) : (area.start.bits + area.size).toNat = area.start.bits.toNat + area.size.toNat := by
  rw [BitVec.toNat_add]
  exact Nat.mod_eq_of_lt h

theorem addr_lt_stop (h : area.Fits) (hk : k ≤ area.pages) :
    (area.addr k).bits < area.start.bits + area.size ↔ k < area.pages := by
  have := area.pages_mul
  rw [BitVec.lt_def, toNat_addr h hk, toNat_stop h]
  omega

/-- The end of an area that does not fit is at or before its start. -/
theorem not_lt_stop (h : ¬ area.Fits) : ¬ area.start.bits < area.start.bits + area.size := by
  have hsum : ¬ area.start.bits.toNat + area.size.toNat < 2 ^ 64 := h
  have := area.start.bits.isLt
  have := area.size.isLt
  rw [BitVec.lt_def, BitVec.toNat_add]
  omega

/-- An area of more than half of the address space has pages whose address is not valid. -/
theorem size_le (h : area.Fits) (hvalid : ∀ k < area.pages, ∃ v, VirtAddr.new (area.addr k).bits = .ok v) :
    area.size.toNat ≤ 2 ^ 63 := by
  by_contra hbig
  have hlt : area.start.bits.toNat + area.size.toNat < 2 ^ 64 := h
  have hsize := area.pages_mul
  have haligned := (isAligned_iff area.start.bits).mp area.start_aligned
  -- the area starts in the lower half, and so goes on beyond its end
  obtain ⟨v₀, hv₀⟩ := hvalid 0 (by omega)
  have hstart := (new_eq_ok.mp hv₀).2
  rw [addr_zero] at hstart
  obtain ⟨v₁, hv₁⟩ := hvalid ((2 ^ 48 - area.start.bits.toNat) / 4096) (by omega)
  have htop := (new_eq_ok.mp hv₁).2
  rw [toNat_addr h (by omega)] at htop
  omega

/-! The operations on one page -/

theorem map_spec (hframed : area.Framed) (hv : v.isAligned = true) (ho : m.Owns others area.frames) :
    Ensures (area.map m v)
      (fun r => ∃ f, r.1 = f.startPaddr ∧ Same area r.2.1 ∧ r.2.1.frame v = some f ∧
        (∀ u g, area.frame u = some g → r.2.1.frame u = some g) ∧
        (∀ u g, r.2.1.frame u = some g → area.frame u = some g ∨ u = v) ∧
        r.2.1.content r.2.2 = area.content m ∧ r.2.2.Owns others r.2.1.frames ∧ m.Keeps others r.2.2)
      (· = .noFrame) := by
  obtain ⟨frames, hmapper⟩ := hframed
  have hframe : ∀ u, area.frame u = frames.get? u := fun u => by rw [frame, hmapper]
  rw [MapArea.map, if_pos hv, hmapper]
  dsimp only
  cases hget : frames.get? v with
  | some f =>
    refine Ensures.pure ⟨f, rfl, Same.refl ⟨frames, hmapper⟩, by rw [hframe, hget], fun _ _ h => h,
      fun _ _ h => .inl h, rfl, ho, Machine.Keeps.refl _ _⟩
  | none =>
    refine (PhysFrame.allocZero_spec ho).bind ?_
    rintro ⟨f, m'⟩ ⟨-, ho', hzero, hmem⟩
    refine Ensures.pure ⟨f, rfl, ⟨rfl, rfl, rfl, _, rfl⟩, ?_, fun u g hu => ?_, fun u g hu => ?_, ?_, ?_,
      fun g hg => hmem g ((ho.mem_live g).mpr (.inl hg))⟩
    · exact (OrdMap.get?_insert hget f v).trans (if_pos rfl)
    · rw [hframe] at hu
      refine (OrdMap.get?_insert hget f u).trans ?_
      rw [if_neg, hu]
      rintro rfl
      rw [hget] at hu
      cases hu
    · have hu : (frames.insert v f).get? u = some g := hu
      rw [OrdMap.get?_insert hget, ← hframe] at hu
      split_ifs at hu with huv
      · exact .inr huv
      · exact .inl hu
    · -- the new frame is cleared, and the others are as they were
      funext u
      have hnew : (frames.insert v f).get? u = if u = v then some f else area.frame u := by
        rw [OrdMap.get?_insert hget, hframe]
      change ((frames.insert v f).get? u).elim 0 (fun f => m'.memory f.number) = _
      rw [hnew]
      split_ifs with huv
      · rw [content_of_none (by rw [huv, hframe, hget])]
        exact hzero
      · cases hu : area.frame u with
        | none => exact (content_of_none hu m).symm
        | some g => exact (hmem _ (ho.live_own (frame_mem hu))).trans (content_of_frame hu m).symm
    · refine ho'.perm ((List.perm_append_singleton _ _).trans ?_)
      rw [MapArea.frames, entries, hmapper]
      exact ((OrdMap.insert_perm hget f).map fun e => e.2.number).symm

theorem unmap_spec (hf : area.frame v = some f) (ho : m.Owns others area.frames) :
    ∃ area' m', area.unmap m v = .ok (area', m') ∧ Same area area' ∧ area.entries.Perm ((v, f) :: area'.entries) ∧
      (∀ u, area'.frame u = if u = v then none else area.frame u) ∧ m'.Owns others area'.frames ∧
      m'.memory = m.memory := by
  cases hmapper : area.mapper with
  | offset off =>
    rw [frame, hmapper] at hf
    cases hf
  | framed frames =>
    have hget : frames.get? v = some f := by
      rw [frame, hmapper] at hf
      exact hf
    have hperm : area.entries.Perm ((v, f) :: (frames.erase v).entries) := by
      rw [entries, hmapper]
      exact OrdMap.erase_perm hget
    have hframes : area.frames.Perm (f.number :: (frames.erase v).entries.map fun e => e.2.number) :=
      hperm.map fun e : VirtAddr × PhysFrame => e.2.number
    obtain ⟨m', hdrop, ho', hmem⟩ := PhysFrame.drop_spec (ho.perm hframes)
    refine ⟨{ area with mapper := .framed (frames.erase v) }, m', ?_, ⟨rfl, rfl, rfl, _, rfl⟩, hperm, fun u => ?_,
      ho', hmem⟩
    · rw [unmap, hmapper]
      dsimp only
      rw [hget]
      dsimp only
      rw [hdrop]
      rfl
    · rw [frame, frame, hmapper]
      exact OrdMap.get?_erase frames v u

/-! `write_data` -/

/-- The frames are for pages of the area. An area of more than half of the address space cannot
be mapped, and nothing is said about it. -/
def Within (area : MapArea) : Prop :=
  area.size.toNat ≤ 2 ^ 63 → ∀ u g, area.frame u = some g → ∃ k < area.pages, u = area.addr k

theorem newFramed_spec (start : VirtAddr) (size : Usize) (flags : MemFlags) :
    Ensures (newFramed start size flags) (fun area => area.start = start ∧ area.size = size ∧ area.Framed ∧
      area.frames = [] ∧ area.Within) fun _ => start.isAligned = false ∨ Mm.isAligned size PAGE_SIZE = false := by
  rw [newFramed]
  split_ifs with h
  · exact Ensures.ok ⟨rfl, rfl, ⟨_, rfl⟩, rfl, fun _ u g hu => absurd (frame_eq_some.mp hu) List.not_mem_nil⟩
  · exact Ensures.error (by rwa [not_and_or, Bool.not_eq_true, Bool.not_eq_true] at h)

/-- One round of the loop: a page gets a frame, and data is copied to it up to its end, or all
that is left. -/
theorem next_eq {w : Writing} (data : List (BitVec 8)) (hpos : 0 < w.remain) :
    ∃ n : Usize, 0 < n.toNat ∧ n.toNat ≤ w.remain.toNat ∧
      w.start.toNat % 4096 + n.toNat = min 4096 (w.start.toNat % 4096 + w.remain.toNat) ∧
      w.next data = (VirtAddr.new (w.area.addr (w.start.toNat / 4096)).bits >>= fun v =>
        w.area.map w.machine v >>= fun r => pure {
          area := r.2.1
          machine := r.2.2.setFrame r.1 (copyFromSlice (r.2.2.memory r.1.frame) (w.start.toNat % 4096)
            ((data.drop w.processed.toNat).take n.toNat))
          start := w.start + n
          remain := w.remain - n
          processed := w.processed + n }) := by
  have hrem : 0 < w.remain.toNat := hpos
  have hlt := w.start.isLt
  have hdown : (alignDown w.start PAGE_SIZE).toNat = w.start.toNat - w.start.toNat % 4096 := toNat_alignDown _
  have hpgoff : (w.start - alignDown w.start PAGE_SIZE).toNat = w.start.toNat % 4096 := by
    rw [BitVec.toNat_sub_of_le (by rw [BitVec.le_def]; omega), hdown]
    omega
  have hleft : (PAGE_SIZE - (w.start - alignDown w.start PAGE_SIZE)).toNat = 4096 - w.start.toNat % 4096 := by
    rw [BitVec.toNat_sub_of_le, hpgoff, toNat_PAGE_SIZE]
    rw [BitVec.le_def, hpgoff, toNat_PAGE_SIZE]
    omega
  -- the address is that of a page of the area
  have haddr : w.area.start.bits + alignDown w.start PAGE_SIZE = (w.area.addr (w.start.toNat / 4096)).bits := by
    have hbits : alignDown w.start PAGE_SIZE = BitVec.ofNat 64 (w.start.toNat / 4096 * 4096) := by
      apply BitVec.eq_of_toNat_eq
      rw [hdown, BitVec.toNat_ofNat]
      omega
    rw [addr, hbits]
  rw [Writing.next]
  dsimp only
  rw [hpgoff, haddr]
  refine ⟨_, ?_, ?_, ?_, rfl⟩
  · split_ifs with hle
    · omega
    · exact hrem
  · split_ifs with hle
    · exact BitVec.le_def.mp hle
    · exact le_rfl
  · split_ifs with hle
    · rw [BitVec.le_def] at hle
      omega
    · rw [BitVec.le_def] at hle
      omega

/-- What is true in each round of the loop. -/
structure Writes (area : MapArea) (m : Machine) (others : Set ℕ) (w : Writing) : Prop where
  same : Same area w.area
  owns : w.machine.Owns others w.area.frames
  keeps : m.Keeps others w.machine
  within : w.area.Within
  inside : area.size.toNat ≤ 2 ^ 63 → w.start.toNat + w.remain.toNat ≤ area.size.toNat

/-- Why data cannot be written: there are no frames left, or an address is not valid. -/
def WriteFails (area : MapArea) (e : Panic) : Prop :=
  e = .noFrame ∨ (area.size.toNat ≤ 2 ^ 63 → ∃ k < area.pages, VirtAddr.new (area.addr k).bits = .error e)

theorem Writes.next {w : Writing} {data : List (BitVec 8)} (h : Writes area m others w) (hpos : 0 < w.remain) :
    Ensures (w.next data) (fun w' => Writes area m others w' ∧ w'.remain.toNat < w.remain.toNat) area.WriteFails := by
  obtain ⟨n, hnpos, hn, -, hnext⟩ := next_eq data hpos
  have hinside := h.inside
  have hpage : area.size.toNat ≤ 2 ^ 63 → w.start.toNat / 4096 < area.pages := fun hsize => by
    have := area.pages_mul
    have := hinside hsize
    omega
  rw [hnext]
  rw [h.same.addr]
  refine (Ensures.cases.fails_imp fun e he => .inr fun hsize => ⟨_, hpage hsize, he⟩).bind fun v hv => ?_
  obtain ⟨rfl, -⟩ := new_eq_ok.mp hv
  refine ((map_spec h.same.framed (addr_aligned _ _) h.owns).fails_imp fun e he => .inl he).bind ?_
  rintro ⟨_, area', m'⟩ ⟨f, rfl, hsame, hf, -, hnew, -, howns, hkeeps⟩
  have hsub : (w.remain - n).toNat = w.remain.toNat - n.toNat := BitVec.toNat_sub_of_le (BitVec.le_def.mpr hn)
  refine Ensures.pure ⟨⟨h.same.trans hsame, howns.setFrame _ _, ?_, fun hsize u g hu => ?_, fun hsize => ?_⟩, ?_⟩
  · exact (h.keeps.trans hkeeps).trans (Machine.Keeps.setFrame howns (frame_mem hf) _)
  · dsimp only at hu hsize ⊢
    rw [hsame.size] at hsize
    rw [hsame.pages]
    rcases hnew u g hu with hu | rfl
    · obtain ⟨k, hk, hu⟩ := h.within hsize u g hu
      exact ⟨k, hk, by rw [hu, hsame.addr]⟩
    · refine ⟨w.start.toNat / 4096, ?_, ((h.same.trans hsame).addr _).symm⟩
      rw [h.same.size] at hsize
      rw [h.same.pages]
      exact hpage hsize
  · have := hinside hsize
    dsimp only
    rw [hsub, BitVec.toNat_add]
    omega
  · dsimp only
    rw [hsub]
    omega

theorem toNat_length (data : Slice) : (BitVec.ofNat 64 data.val.length).toNat = data.val.length := by
  have := data.property
  rw [BitVec.toNat_ofNat]
  omega

/-- The first round. -/
theorem Writes.start (hframed : area.Framed) (hwithin : area.Within) (ho : m.Owns others area.frames)
    {offset : Usize} {data : Slice} (hlt : offset < area.size)
    (hle : offset + BitVec.ofNat 64 data.val.length ≤ area.size) :
    Writes area m others ⟨area, m, offset, BitVec.ofNat 64 data.val.length, 0⟩ := by
  refine ⟨Same.refl hframed, ho, Machine.Keeps.refl _ _, hwithin, fun hsize => ?_⟩
  have hdata := data.property
  rw [BitVec.lt_def] at hlt
  rw [BitVec.le_def, BitVec.toNat_add, toNat_length] at hle
  dsimp only
  rw [toNat_length]
  omega

theorem writeData_spec (hframed : area.Framed) (hwithin : area.Within) (ho : m.Owns others area.frames)
    (offset : Usize) (data : Slice) : Ensures (area.writeData m offset data)
      (fun r => Same area r.1 ∧ r.1.Within ∧ r.2.Owns others r.1.frames ∧ m.Keeps others r.2)
      fun _ => True := by
  refine Ensures.ite (fun hc => ?_) fun _ => Ensures.throw trivial
  refine Ensures.bind (whileM_spec (Writes area m others) (fun w => w.remain.toNat)
    (fun w _ hw => of_decide_eq_true hw) (fun w h hw => (h.next (of_decide_eq_true hw)).weaken)
    (Writes.start hframed hwithin ho hc.1 hc.2) (toNat_length data).le) ?_
  rintro w ⟨hw, -⟩
  exact Ensures.pure ⟨hw.same, hw.within, hw.owns, hw.keeps⟩

theorem writeData_lt (area : MapArea) (m : Machine) (offset : Usize) (data : Slice) :
    Ensures (area.writeData m offset data) (fun _ => offset < area.size) fun _ => True :=
  Ensures.ite (fun hc => Ensures.result.bind fun _ _ => Ensures.pure hc.1) fun _ => Ensures.throw trivial

/-! `clone` -/

/-- A frame of the result is one that was there, or a copy. -/
theorem cloneFrames_spec {newFrames : OrdMap VirtAddr PhysFrame} {l : List (VirtAddr × PhysFrame)}
    (ho : m.Owns others (newFrames.entries.map fun e => e.2.number)) (hnd : (l.map Prod.fst).Nodup)
    (hnew : ∀ u ∈ l.map Prod.fst, newFrames.get? u = none) : Ensures (cloneFrames newFrames m l)
      (fun r => (∀ u, (r.1.get? u).isSome ↔ (newFrames.get? u).isSome ∨ u ∈ l.map Prod.fst) ∧
        ((∀ e ∈ l, e.2.number ∈ others) → ∀ u g, r.1.get? u = some g →
          (newFrames.get? u = some g ∧ r.2.memory g.number = m.memory g.number) ∨
          ∃ orig, (u, orig) ∈ l ∧ r.2.memory g.number = m.memory orig.number) ∧
        r.2.Owns others (r.1.entries.map fun e => e.2.number) ∧ m.Keeps others r.2)
      (· = .noFrame) := by
  induction l generalizing newFrames m with
  | nil => exact Ensures.pure ⟨fun u => by simp, fun _ u g hg => .inl ⟨hg, rfl⟩, ho, Machine.Keeps.refl _ _⟩
  | cons e l ih =>
    obtain ⟨v, orig⟩ := e
    obtain ⟨hnot, hnd⟩ := List.nodup_cons.mp hnd
    have hnone : newFrames.get? v = none := hnew v List.mem_cons_self
    refine (PhysFrame.alloc_spec ho).bind ?_
    rintro ⟨f, m'⟩ ⟨hfresh, ho', hmem⟩
    dsimp only at hfresh ho' hmem ⊢
    have hown : (m'.setFrame f.startPaddr (m'.memory orig.startPaddr.frame)).Owns others
        ((newFrames.insert v f).entries.map fun e => e.2.number) := by
      refine (ho'.setFrame _ _).perm ((List.perm_append_singleton _ _).trans ?_)
      exact ((OrdMap.insert_perm hnone f).map fun e : VirtAddr × PhysFrame => e.2.number).symm
    -- only the new frame is written
    have hkept : ∀ g ∈ m.outstanding,
        (m'.setFrame f.startPaddr (m'.memory orig.startPaddr.frame)).memory g = m.memory g := by
      intro g hg
      rw [Machine.setFrame_memory, if_neg, hmem]
      rintro rfl
      exact hfresh hg
    have hcopy : (m'.setFrame f.startPaddr (m'.memory orig.startPaddr.frame)).memory f.number =
        m.memory orig.number := by
      rw [Machine.setFrame_memory, if_pos f.number_eq, hmem, orig.number_eq]
    refine (ih hown hnd fun u hu => ?_).mono ?_
    · rw [OrdMap.get?_insert hnone, if_neg]
      · exact hnew u (List.mem_cons_of_mem _ hu)
      · rintro rfl
        exact hnot hu
    · rintro r ⟨hkeys, hcontent, hr, hk⟩
      refine ⟨fun u => ?_, fun hin u g hg => ?_, hr, fun g hg => ?_⟩
      · rw [hkeys, OrdMap.get?_insert hnone, List.map_cons, List.mem_cons]
        split_ifs with huv
        · simp [huv]
        · simp [huv]
      · rcases hcontent (fun e he => hin e (List.mem_cons_of_mem _ he)) u g hg with ⟨hget, hold⟩ | ⟨o, hmem_o, hold⟩
        · rw [OrdMap.get?_insert hnone] at hget
          split_ifs at hget with huv
          · rw [← Option.some.inj hget] at hold ⊢
            exact .inr ⟨orig, by rw [huv]; exact List.mem_cons_self, hold.trans hcopy⟩
          · refine .inl ⟨hget, hold.trans (hkept _ ?_)⟩
            exact ho.live_own (List.mem_map.mpr ⟨_, OrdMap.get?_eq_some.mp hget, rfl⟩)
        · refine .inr ⟨o, List.mem_cons_of_mem _ hmem_o, hold.trans (hkept _ ?_)⟩
          exact (ho.mem_live _).mpr (.inl (hin _ (List.mem_cons_of_mem _ hmem_o)))
      · exact (hk g hg).trans (hkept g ((ho.mem_live g).mpr (.inl hg)))

theorem mem_keys : u ∈ area.entries.map Prod.fst ↔ (area.frame u).isSome := by
  rw [List.mem_map, Option.isSome_iff_exists]
  constructor
  · rintro ⟨e, he, rfl⟩
    exact ⟨e.2, frame_eq_some.mpr he⟩
  · rintro ⟨g, hg⟩
    exact ⟨_, frame_eq_some.mp hg, rfl⟩

/-- A copy has frames for the same pages, and the content is the same. -/
theorem clone_spec (hframed : area.Framed) (ho : m.Owns others []) : Ensures (area.clone m)
    (fun r => Same area r.1 ∧ (∀ u, (r.1.frame u).isSome ↔ (area.frame u).isSome) ∧
      ((∀ f ∈ area.frames, f ∈ others) → r.1.content r.2 = area.content m) ∧
      r.2.Owns others r.1.frames ∧ m.Keeps others r.2) (· = .noFrame) := by
  obtain ⟨frames, hmapper⟩ := hframed
  have hentries : frames.entries = area.entries := by rw [entries, hmapper]
  rw [clone, hmapper]
  refine (cloneFrames_spec ho frames.keys_nodup fun u _ => rfl).bind ?_
  rintro ⟨newFrames, m'⟩ ⟨hkeys, hcontent, ho', hkeeps⟩
  have hkey : ∀ u, (newFrames.get? u).isSome ↔ (area.frame u).isSome := fun u => by
    rw [hkeys, hentries, mem_keys]
    exact or_iff_right fun h => by cases h
  refine Ensures.pure ⟨⟨rfl, rfl, rfl, _, rfl⟩, hkey, fun hin => funext fun u => ?_, ho', hkeeps⟩
  change (newFrames.get? u).elim 0 (fun f => m'.memory f.number) = _
  cases hu : newFrames.get? u with
  | none =>
    have hnone : area.frame u = none := by
      rw [← Option.not_isSome_iff_eq_none, ← hkey, hu]
      exact Bool.false_ne_true
    rw [content_of_none hnone, Option.elim_none]
  | some g =>
    have hold : ∀ e ∈ frames.entries, e.2.number ∈ others := by
      rw [hentries]
      exact fun e he => hin _ (List.mem_map.mpr ⟨e, he, rfl⟩)
    rcases hcontent hold u g hu with ⟨hget, -⟩ | ⟨orig, horig, heq⟩
    · cases hget
    · rw [hentries] at horig
      rw [content_of_frame (frame_eq_some.mpr horig)]
      exact heq

/-! `map_area` -/

/-- Each page has a frame, and there are no other frames. -/
structure Full (area : MapArea) : Prop where
  framed : area.Framed
  fits : area.Fits
  valid : ∀ k < area.pages, VirtAddr.new (area.addr k).bits = .ok (area.addr k)
  keys : ∀ u, (area.frame u).isSome ↔ ∃ k < area.pages, u = area.addr k

/-- The first `k` pages are mapped, to the frames of `done`. -/
structure Maps (area : MapArea) (l : List (Page × PhysAddr × MemFlags)) (m : Machine) (others : Set ℕ) (k : ℕ)
    (s : PageTable.Mapping) : Prop where
  vaddr : s.vaddr = (area.addr k).bits
  same : Same area s.area
  valid : ∀ j < k, VirtAddr.new (area.addr j).bits = .ok (area.addr j)
  keys : ∀ u g, s.area.frame u = some g → area.frame u = some g ∨ ∃ j < area.pages, u = area.addr j
  content : s.area.content s.machine = area.content m
  owns : s.machine.Owns others (s.pt.tables ++ s.area.frames)
  keeps : m.Keeps others s.machine
  leaves : ∃ done : List (VirtAddr × PhysFrame), (done.map Prod.fst).Nodup ∧
    (∀ u, u ∈ done.map Prod.fst ↔ ∃ j < k, u = area.addr j) ∧ (∀ e ∈ done, s.area.frame e.1 = some e.2) ∧
    s.pt.Leaves s.machine (done.map (fun e => (e.1.page, e.2.startPaddr, area.flags)) ++ l)

variable {l : List (Page × PhysAddr × MemFlags)} {pt : PageTable}

/-- Why an area cannot be mapped: there are no frames left, an address is not valid, or a page
is mapped already. -/
def MapFails (area : MapArea) (l : List (Page × PhysAddr × MemFlags)) (e : Panic) : Prop :=
  e = .noFrame ∨ ∃ k < area.pages, VirtAddr.new (area.addr k).bits = .error e ∨
    e = .mapped ∧ ((area.addr k).page ∈ l.map Prod.fst ∨ ∃ j < k, (area.addr j).page = (area.addr k).page)

theorem Maps.next {s : PageTable.Mapping} (hfits : area.Fits) (hk : k < area.pages) (h : Maps area l m others k s) :
    Ensures s.next (Maps area l m others (k + 1)) (MapFails area l) := by
  obtain ⟨done, hnd, hkeys, hdone, hleaves⟩ := h.leaves
  rw [PageTable.Mapping.next, h.vaddr]
  refine Ensures.cases.fails_imp (fun e he => .inr ⟨k, hk, .inl he⟩) |>.bind fun v hv => ?_
  obtain ⟨rfl, -⟩ := new_eq_ok.mp hv
  have hframes := (h.owns.perm List.perm_append_comm)
  refine ((map_spec h.same.framed (addr_aligned area k) hframes.focus).fails_imp fun e he => .inl he).bind ?_
  rintro ⟨_, area₁, m₁⟩ ⟨f, rfl, hsame, hf, hmono, hnew, hcontent, howns, hkeeps⟩
  dsimp only at hsame hf hmono hnew hcontent howns hkeeps ⊢
  have hown₁ := (hframes.unfocus howns).perm List.perm_append_comm
  have hleaves₁ := hleaves.congr fun t ht => hkeeps t (.inr ht)
  rw [hv]
  have hmap := hleaves₁.map_page hown₁.focus (area.addr k) f.startPaddr area₁.flags
  refine (hmap.fails_imp fun e he => ?_).bind ?_
  · refine he.imp_right fun ⟨he, hpage⟩ => ⟨k, hk, .inr ⟨he, ?_⟩⟩
    rw [List.map_append, List.mem_append] at hpage
    refine hpage.symm.imp_right fun hpage => ?_
    obtain ⟨d, hd, hde⟩ := List.mem_map.mp hpage
    obtain ⟨d', hd', rfl⟩ := List.mem_map.mp hd
    obtain ⟨j, hj, hdj⟩ := (hkeys d'.1).mp (List.mem_map_of_mem hd')
    exact ⟨j, hj, by rw [← hdj]; exact hde⟩
  rintro ⟨pt₂, m₂⟩ ⟨hleaves₂, hown₂, hkeeps₂⟩
  have hflags : area₁.flags = area.flags := hsame.flags.trans h.same.flags
  refine Ensures.pure ⟨(addr_succ area k).symm, h.same.trans hsame, fun j hj => ?_, fun u g hu => ?_, ?_,
    hown₁.unfocus hown₂, ?_, (area.addr k, f) :: done, List.nodup_cons.mpr ⟨?_, hnd⟩, fun u => ?_, fun e he => ?_, ?_⟩
  · rcases Nat.lt_succ_iff_lt_or_eq.mp hj with hj | rfl
    · exact h.valid j hj
    · exact hv
  · rcases hnew u g hu with hu | rfl
    · exact h.keys u g hu
    · exact .inr ⟨k, hk, rfl⟩
  · rw [← h.content, ← hcontent]
    exact content_congr fun g hg => hkeeps₂ g (.inr hg)
  · have hsub := hkeeps.mono (Set.subset_union_left)
    exact (h.keeps.trans hsub).trans (hkeeps₂.mono Set.subset_union_left)
  · rw [hkeys]
    rintro ⟨j, hj, hjk⟩
    have := addr_inj hfits (by omega) (by omega) hjk
    omega
  · rw [List.map_cons, List.mem_cons, hkeys]
    constructor
    · rintro (rfl | ⟨j, hj, rfl⟩)
      · exact ⟨k, by omega, rfl⟩
      · exact ⟨j, by omega, rfl⟩
    · rintro ⟨j, hj, rfl⟩
      rcases Nat.lt_succ_iff_lt_or_eq.mp hj with hj | rfl
      · exact .inr ⟨j, hj, rfl⟩
      · exact .inl rfl
  · rcases List.mem_cons.mp he with rfl | he
    · exact hf
    · exact hmono _ _ (hdone e he)
  · rw [hflags] at hleaves₂
    exact hleaves₂

theorem mapArea_spec (hframed : area.Framed) (hfits : area.Fits) (hwithin : area.Within) (hl : pt.Leaves m l)
    (ho : m.Owns others (pt.tables ++ area.frames)) : Ensures (pt.mapArea area m)
      (fun r => Same area r.2.1 ∧ r.2.1.Full ∧ r.2.1.content r.2.2 = area.content m ∧
        r.1.Leaves r.2.2 (r.2.1.leaves ++ l) ∧ r.2.2.Owns others (r.1.tables ++ r.2.1.frames) ∧
        m.Keeps others r.2.2)
      (MapFails area l) := by
  have hstart : Maps area l m others 0 ⟨pt, area, m, area.start.bits⟩ := by
    refine ⟨by rw [addr_zero], Same.refl hframed, fun j hj => absurd hj (Nat.not_lt_zero j), fun u g hu => .inl hu, rfl,
      ho, Machine.Keeps.refl _ _, [], List.nodup_nil, fun u => ?_, fun e he => absurd he List.not_mem_nil, hl⟩
    refine iff_of_false List.not_mem_nil ?_
    rintro ⟨j, hj, -⟩
    exact Nat.not_lt_zero j hj
  refine (whileM_count (Maps area l m others) (fun k s hk h => ?_) (fun k s hk h => h.next hfits hk) hstart).bind ?_
  · rw [decide_eq_true_eq, h.vaddr]
    exact addr_lt_stop hfits hk
  rintro s ⟨-, hsame, hvalid, hkeys, hcontent, howns, hkeeps, done, hnd, hpages, hdone, hleaves⟩
  have hsize := size_le hfits fun k hk => ⟨_, hvalid k hk⟩
  -- the frames of the area are those of the pages that have been mapped
  have hkey : ∀ u, (s.area.frame u).isSome ↔ ∃ k < area.pages, u = area.addr k := by
    intro u
    rw [Option.isSome_iff_exists]
    constructor
    · rintro ⟨g, hg⟩
      rcases hkeys u g hg with hu | hu
      · exact hwithin hsize u g hu
      · exact hu
    · intro hu
      obtain ⟨e, he, rfl⟩ := List.mem_map.mp ((hpages u).mpr hu)
      exact ⟨e.2, hdone e he⟩
  have hperm : done.Perm s.area.entries := by
    refine (List.perm_ext_iff_of_nodup hnd.of_map s.area.keys_nodup.of_map).mpr fun e => ?_
    rw [← frame_eq_some (v := e.1) (f := e.2)]
    refine ⟨fun he => hdone e he, fun he => ?_⟩
    obtain ⟨d, hd, hde⟩ := List.mem_map.mp ((hpages e.1).mpr ((hkey e.1).mp (by rw [he]; rfl)))
    have hfd := hdone d hd
    rw [hde, he, Option.some.injEq] at hfd
    rw [← Prod.ext hde hfd.symm]
    exact hd
  refine Ensures.pure ⟨hsame, ⟨hsame.framed, ?_, fun k hk => ?_, fun u => ?_⟩, hcontent, hleaves.perm ?_,
    howns, hkeeps⟩
  · exact hsame.fits_iff.mpr hfits
  · rw [hsame.addr]
    rw [hsame.pages] at hk
    exact hvalid k hk
  · rw [hkey, hsame.pages]
    exact exists_congr fun k => and_congr_right fun _ => by rw [hsame.addr]
  · refine List.Perm.append_right l ?_
    rw [MapArea.leaves, hsame.flags]
    exact hperm.map _

/-- Nothing is mapped when the end of the area is not an address. -/
theorem mapArea_of_not_fits (hfits : ¬ area.Fits) : pt.mapArea area m = .ok (pt, area, m) := by
  rw [PageTable.mapArea, whileM_of_false]
  · rfl
  · exact decide_eq_false (not_lt_stop hfits)

/-- The page table keeps its root. -/
theorem mapArea_root (pt : PageTable) (area : MapArea) (m : Machine) :
    Ensures (pt.mapArea area m) (fun r => r.1.rootPaddr = pt.rootPaddr) fun _ => True := by
  have hstart : (⟨pt, area, m, area.start.bits⟩ : PageTable.Mapping).pt.rootPaddr = pt.rootPaddr := rfl
  refine (whileM_inv (fun s : PageTable.Mapping => s.pt.rootPaddr = pt.rootPaddr) (fun s hs => ?_) hstart).bind
    fun s hs => Ensures.pure hs
  refine Ensures.result.bind fun _ _ => Ensures.result.bind fun r _ => Ensures.result.bind fun _ _ => ?_
  exact (PageTable.map_root _ _ _ _ _).bind fun _ h => Ensures.pure (h.trans hs)

/-! `unmap_area` -/

/-- The pages from the `k`-th on are still mapped. -/
structure Unmaps (area : MapArea) (l : List (Page × PhysAddr × MemFlags)) (pt : PageTable) (m : Machine)
    (others : Set ℕ) (k : ℕ) (s : PageTable.Unmapping) : Prop where
  vaddr : s.vaddr = (area.addr k).bits
  same : Same area s.area
  keys : ∀ u, (s.area.frame u).isSome ↔ ∃ j < area.pages, k ≤ j ∧ u = area.addr j
  owns : s.machine.Owns others (pt.tables ++ s.area.frames)
  keeps : m.Keeps others s.machine
  leaves : pt.Leaves s.machine (s.area.leaves ++ l)

theorem Unmaps.next {s : PageTable.Unmapping} (hfull : area.Full) (hk : k < area.pages)
    (h : Unmaps area l pt m others k s) : Ensures (s.next pt) (Unmaps area l pt m others (k + 1)) fun _ => False := by
  obtain ⟨f, hf⟩ := Option.isSome_iff_exists.mp ((h.keys _).mpr ⟨k, hk, le_rfl, rfl⟩)
  have hframes := h.owns.perm List.perm_append_comm
  obtain ⟨area₁, m₁, hunmap, hsame, hperm, hframe, howns, hmem⟩ := unmap_spec hf hframes.focus
  have hown₁ := (hframes.unfocus howns).perm List.perm_append_comm
  -- one page fewer is mapped
  have hleaves : pt.Leaves m₁ (((area.addr k).page, f.startPaddr, s.area.flags) :: (area₁.leaves ++ l)) := by
    have hleaf : s.area.leaves.Perm (((area.addr k).page, f.startPaddr, s.area.flags) :: area₁.leaves) := by
      rw [MapArea.leaves, MapArea.leaves, hsame.flags]
      exact hperm.map fun e : VirtAddr × PhysFrame => (e.1.page, e.2.startPaddr, s.area.flags)
    exact (h.leaves.congr fun t _ => by rw [hmem]).perm (hleaf.append_right l)
  obtain ⟨m₂, hpt, hleaves₂, hown₂, hkeeps₂⟩ := hleaves.unmap_page hown₁.focus
  have hnext : s.next pt = .ok ⟨area₁, m₂, s.vaddr + PAGE_SIZE⟩ := by
    rw [PageTable.Unmapping.next, h.vaddr, hfull.valid k hk]
    change (s.area.unmap s.machine (area.addr k) >>= _) = _
    rw [hunmap]
    change (pt.unmap m₁ (area.addr k) >>= _) = _
    rw [hpt]
    rfl
  rw [hnext]
  refine Ensures.ok ⟨?_, h.same.trans hsame, fun u => ?_, hown₁.unfocus hown₂, h.keeps.trans fun g hg => ?_, hleaves₂⟩
  · rw [addr_succ, h.vaddr]
  · rw [hframe]
    split_ifs with hu
    · refine iff_of_false Bool.false_ne_true ?_
      rintro ⟨j, hj, hkj, huj⟩
      have := addr_inj hfull.fits hk.le hj.le (hu.symm.trans huj)
      omega
    · rw [h.keys]
      constructor
      · rintro ⟨j, hj, hkj, rfl⟩
        refine ⟨j, hj, Nat.succ_le_of_lt (lt_of_le_of_ne hkj ?_), rfl⟩
        rintro rfl
        exact hu rfl
      · rintro ⟨j, hj, hkj, rfl⟩
        exact ⟨j, hj, by omega, rfl⟩
  · rw [hkeeps₂ g (.inl hg), hmem]

theorem unmapArea_spec (hfull : area.Full) (hl : pt.Leaves m (area.leaves ++ l))
    (ho : m.Owns others (pt.tables ++ area.frames)) : ∃ area' m', pt.unmapArea area m = .ok (area', m') ∧
      area'.Framed ∧ area'.entries = [] ∧ pt.Leaves m' l ∧ m'.Owns others pt.tables ∧ m.Keeps others m' := by
  have hstart : Unmaps area l pt m others 0 ⟨area, m, area.start.bits⟩ := by
    refine ⟨by rw [addr_zero], Same.refl hfull.framed, fun u => ?_, ho, Machine.Keeps.refl _ _, hl⟩
    rw [hfull.keys]
    exact exists_congr fun j => and_congr_right fun _ => (and_iff_right (Nat.zero_le j)).symm
  have hcond : ∀ k (s : PageTable.Unmapping), k ≤ area.pages → Unmaps area l pt m others k s →
      (decide (s.vaddr < area.start.bits + area.size) = true ↔ k < area.pages) := by
    intro k s hk h
    rw [decide_eq_true_eq, h.vaddr]
    exact addr_lt_stop hfull.fits hk
  obtain ⟨s, hs, h⟩ := (whileM_count (Unmaps area l pt m others) hcond (fun k s hk h => h.next hfull hk) hstart).total
  have hempty : s.area.entries = [] := by
    rw [List.eq_nil_iff_forall_not_mem]
    intro e he
    obtain ⟨j, hj, hkj, -⟩ := (h.keys e.1).mp (by rw [frame_eq_some.mpr he]; rfl)
    omega
  refine ⟨s.area, s.machine, ?_, h.same.framed, hempty, ?_, ?_, h.keeps⟩
  · rw [PageTable.unmapArea, hs]
    rfl
  · have := h.leaves
    rw [leaves, hempty] at this
    exact this
  · have := h.owns
    rw [frames, hempty, List.map_nil, List.append_nil] at this
    exact this

/-- Nothing has been mapped when the end of the area is not an address. -/
theorem unmapArea_of_not_fits (hfits : ¬ area.Fits) : pt.unmapArea area m = .ok (area, m) := by
  rw [PageTable.unmapArea, whileM_of_false]
  · rfl
  · exact decide_eq_false (not_lt_stop hfits)

/-! Dropping -/

theorem dropFrames_spec {frames : List PhysFrame} (ho : m.Owns others (frames.map PhysFrame.number)) :
    ∃ m', dropFrames frames m = .ok m' ∧ m'.Owns others [] ∧ m'.memory = m.memory := by
  induction frames generalizing m with
  | nil => exact ⟨m, rfl, ho, rfl⟩
  | cons f frames ih =>
    obtain ⟨m₁, hdrop, ho₁, hmem₁⟩ := PhysFrame.drop_spec ho
    obtain ⟨m', hm', ho', hmem'⟩ := ih ho₁
    refine ⟨m', ?_, ho', hmem'.trans hmem₁⟩
    rw [dropFrames, List.foldlM_cons, hdrop]
    exact hm'

theorem drop_spec (hframed : area.Framed) (ho : m.Owns others area.frames) :
    ∃ m', area.drop m = .ok m' ∧ m'.Owns others [] ∧ m'.memory = m.memory := by
  obtain ⟨frames, hmapper⟩ := hframed
  rw [MapArea.frames, entries, hmapper] at ho
  rw [drop, hmapper]
  refine dropFrames_spec ?_
  rw [OrdMap.values, List.map_map]
  exact ho

end MapArea

end RCore.Mm
