import Mathlib
import RCore.Proofs.Mm.Fork
import RCore.Spec.Mm.Elf

/-! A program is in memory as its file says, once it is loaded. -/

namespace RCore.Mm

open RCore.Lib

theorem toNat_alignUp {addr : Usize} (h : addr.toNat + 4095 < 2 ^ 64) :
    (alignUp addr PAGE_SIZE).toNat = (addr.toNat + 4095) / 4096 * 4096 := by
  have hadd : (addr + PAGE_SIZE - 1).toNat = addr.toNat + 4095 := by
    rw [show addr + PAGE_SIZE - 1 = addr + 4095 by rw [PAGE_SIZE]; ring, BitVec.toNat_add]
    exact Nat.mod_eq_of_lt h
  rw [alignUp, PAGE_SIZE_sub_one, toNat_and_not_mask _ (by omega), hadd]
  omega

/-! Areas in the lower half of the address space -/

namespace MapArea

variable {area : MapArea} {m : Machine} {first count k : ℕ} {v : VirtAddr} {e : MemFlags × BitVec 8}

/-- The area is `count` pages from the page `first` on. -/
structure At (area : MapArea) (first count : ℕ) : Prop where
  start : area.start.bits.toNat = first * 4096
  size : area.size.toNat = count * 4096
  low : (first + count) * 4096 < 2 ^ 48

theorem At.fits (h : area.At first count) : area.Fits := by
  have := h.start
  have := h.size
  have := h.low
  rw [Fits]
  omega

theorem At.pages (h : area.At first count) : area.pages = count := by
  have := area.pages_mul
  have := h.size
  omega

theorem At.addr (h : area.At first count) (hk : k < count) : (area.addr k).bits.toNat = (first + k) * 4096 := by
  rw [toNat_addr h.fits (by rw [h.pages]; exact hk.le), h.start]
  omega

theorem At.valid (h : area.At first count) (hk : k < count) : VirtAddr.new (area.addr k).bits = .ok (area.addr k) := by
  have haddr := h.addr hk
  have hlow := h.low
  exact new_eq_ok.mpr ⟨rfl, .inl (by omega)⟩

theorem At.page_eq (h : area.At first count) (hk : k < count) (hv : v.bits.toNat < 2 ^ 48) :
    v.page = (area.addr k).page ↔ v.bits.toNat / 4096 = first + k := by
  have := h.low
  rw [← BitVec.toNat_inj, toNat_page, toNat_page, h.addr hk]
  omega

/-- A new area that nothing has been written to. -/
structure Blank (area : MapArea) : Prop where
  framed : area.Framed
  frames : area.frames = []
  within : area.Within

theorem newFramed_at (start : VirtAddr) {size : Usize} (flags : MemFlags) (hstart : start.bits.toNat = first * 4096)
    (hsize : size.toNat = count * 4096) (hlow : (first + count) * 4096 < 2 ^ 48) :
    ∃ area, newFramed start size flags = .ok area ∧ area.At first count ∧ area.flags = flags ∧ area.Blank := by
  have haligned : start.isAligned = true ∧ isAligned size PAGE_SIZE = true := by
    rw [VirtAddr.isAligned, isAligned_iff, isAligned_iff]
    omega
  have hnew := newFramed_spec start size flags
  rw [newFramed, dif_pos haligned] at hnew ⊢
  obtain ⟨-, -, hframed, hframes, hwithin⟩ := hnew
  exact ⟨_, rfl, ⟨hstart, hsize, hlow⟩, rfl, hframed, hframes, hwithin⟩

theorem At.of_same {area' : MapArea} (h : area.At first count) (hsame : Same area area') : area'.At first count :=
  ⟨by rw [hsame.start, h.start], by rw [hsame.size, h.size], h.low⟩

theorem At.shows_iff (h : area.At first count) (hv : v.bits.toNat < 2 ^ 48) : area.Shows m v e ↔
    (first ≤ v.bits.toNat / 4096 ∧ v.bits.toNat / 4096 < first + count) ∧
      e = (area.flags, area.byteAt m (v.bits.toNat - first * 4096)) := by
  rw [Shows, h.pages]
  constructor
  · rintro ⟨k, hk, hpage, rfl⟩
    have hpage := (h.page_eq hk hv).mp hpage
    refine ⟨by omega, ?_⟩
    rw [show k * 4096 + v.bits.toNat % 4096 = v.bits.toNat - first * 4096 by omega]
  · rintro ⟨hpage, rfl⟩
    have hk : v.bits.toNat / 4096 - first < count := by omega
    refine ⟨_, hk, (h.page_eq hk hv).mpr (by omega), ?_⟩
    rw [show (v.bits.toNat / 4096 - first) * 4096 + v.bits.toNat % 4096 = v.bits.toNat - first * 4096 by omega]

end MapArea

namespace MemorySet

variable {ms : MemorySet} {m : Machine} {others : Set ℕ} {area : MapArea} {first count : ℕ}

/-- The areas of a set are in the lower half, none of them is empty, and they have no page from
`first` on in common with `count` others. -/
def Spares (ms : MemorySet) (first count : ℕ) : Prop :=
  ∀ a ∈ ms.areas.values, ∃ f c, a.At f c ∧ 0 < c ∧ (f + c ≤ first ∨ first + count ≤ f)

/-- An area can be put where there is room, unless the frames run out. -/
theorem Spares.insertFails (h : ms.Sound m) (hspares : ms.Spares first count) (hat : area.At first count)
    (hpos : 0 < count) {e : Panic} (he : ms.InsertFails area e) : e = .noFrame := by
  rcases he with ⟨-, hsome⟩ | ⟨-, rfl | ⟨k, hk, hfail⟩⟩
  · -- no other area starts there
    obtain ⟨a, ha⟩ := Option.isSome_iff_exists.mp hsome
    obtain ⟨f, c, hfc, hc, hapart⟩ := hspares a (mem_values.mpr ⟨_, ha⟩)
    have hstart := hfc.start
    rw [h.start _ (OrdMap.get?_eq_some.mp ha), hat.start] at hstart
    omega
  · rfl
  · rw [hat.pages] at hk
    have haddr := hat.addr hk
    have hlow := hat.low
    rcases hfail with hinvalid | ⟨rfl, hpage | ⟨j, hj, hpage⟩⟩
    · rw [hat.valid hk] at hinvalid
      cases hinvalid
    · -- a page of another area
      obtain ⟨⟨page, d⟩, hd, rfl⟩ := List.mem_map.mp hpage
      obtain ⟨a, ha, hfits, u, g, hg, hu, -⟩ := mem_mapped.mp hd
      obtain ⟨f, c, hfc, -, hapart⟩ := hspares a ha
      obtain ⟨i, hi, rfl⟩ := (((h.inserted a ha).full hfits).keys u).mp (by rw [hg]; rfl)
      rw [hfc.pages] at hi
      have hnumber := (hfc.page_eq hi (by omega)).mp hu.symm
      omega
    · have hnumber := (hat.page_eq (hj.trans hk) (by omega)).mp hpage.symm
      omega

end MemorySet

/-! Segments -/

namespace Segment

variable {ph : Segment}

/-- The pages that the segment occupies. -/
def pageNumbers (ph : Segment) : Set ℕ :=
  {n | ∃ x, ph.virtualAddr.toNat ≤ x ∧ x < ph.virtualAddr.toNat + ph.memSize.toNat ∧ n = x / 4096}

/-- Not empty, with no more bytes in the file than in memory, and below the stack. -/
structure Valid (ph : Segment) : Prop where
  pos : 0 < ph.memSize.toNat
  file : ph.data.val.length ≤ ph.memSize.toNat
  below : ph.virtualAddr.toNat + ph.memSize.toNat ≤ Os.USER_STACK_TOP - Os.USER_STACK_SIZE

def first (ph : Segment) : ℕ := ph.virtualAddr.toNat / 4096

def count (ph : Segment) : ℕ :=
  (ph.virtualAddr.toNat + ph.memSize.toNat + 4095) / 4096 - ph.virtualAddr.toNat / 4096

/-- The byte at an address: that of the file, or zero. -/
def byte (ph : Segment) (x : ℕ) : BitVec 8 :=
  if ph.virtualAddr.toNat ≤ x ∧ x < ph.virtualAddr.toNat + ph.data.val.length then
    ph.data.val.getD (x - ph.virtualAddr.toNat) 0
  else 0

theorem Valid.mem_pageNumbers (h : ph.Valid) {n : ℕ} :
    n ∈ ph.pageNumbers ↔ ph.first ≤ n ∧ n < ph.first + ph.count := by
  have := h.pos
  rw [pageNumbers, Set.mem_ofPred_eq, first, count]
  constructor
  · rintro ⟨x, hx, hlt, rfl⟩
    omega
  · rintro ⟨hge, hlt⟩
    refine ⟨max ph.virtualAddr.toNat (n * 4096), le_max_left _ _, ?_, ?_⟩
    · omega
    · omega

theorem Valid.count_pos (h : ph.Valid) : 0 < ph.count := by
  have := h.pos
  rw [count]
  omega

end Segment

namespace MemorySet

variable {ms : MemorySet} {m : Machine} {others : Set ℕ} {area : MapArea} {first count : ℕ} {ph : Segment}

/-- Pages are added to a set, with some flags and bytes. -/
structure Loads (others : Set ℕ) (ms : MemorySet) (m : Machine) (pages : MapArea → Prop)
    (shows : VirtAddr → MemFlags × BitVec 8 → Prop) (r : MemorySet × Machine) : Prop where
  sound : r.1.Sound r.2
  owns : r.2.Owns others r.1.frames
  areas : ∀ a ∈ r.1.areas.values, a ∈ ms.areas.values ∨ pages a
  read : ∀ v e, v.bits.toNat < 2 ^ 48 → (r.1.read r.2 v = some e ↔ shows v e ∨ ms.read m v = some e)

/-- What is to be read in some pages. -/
def PagesShow (first count : ℕ) (flags : MemFlags) (byte : ℕ → BitVec 8) (v : VirtAddr) (e : MemFlags × BitVec 8) : Prop :=
  (first ≤ v.bits.toNat / 4096 ∧ v.bits.toNat / 4096 < first + count) ∧ e = (flags, byte v.bits.toNat)

theorem Spares.insert (h : ms.Sound m) (hspares : ms.Spares first count) (hat : area.At first count) (hpos : 0 < count)
    (hframed : area.Framed) (hwithin : area.Within) (ho : m.Owns others (ms.frames ++ area.frames))
    {byte : ℕ → BitVec 8} (hbyte : ∀ g < count * 4096, area.byteAt m g = byte (first * 4096 + g)) :
    Ensures (ms.insert area m)
      (Loads others ms m (fun a => a.At first count) (PagesShow first count area.flags byte)) (· = .noFrame) := by
  have hinsert := h.insert hframed (fun _ => hwithin) ho
  refine (hinsert.fails_imp fun e he => hspares.insertFails h hat hpos he).mono fun r hputs => ?_
  obtain ⟨area', hsame, -, hareas⟩ := hputs.areas
  refine ⟨hputs.sound, hputs.owns, fun a ha => ?_, fun v e hv => ?_⟩
  · rw [hareas] at ha
    rcases (values_put hputs.vacant).mp ha with rfl | ha
    · exact .inr (hat.of_same hsame)
    · exact .inl ha
  · rw [hputs.read_eq_some h, and_iff_right hat.fits, hat.shows_iff hv, PagesShow]
    refine or_congr (and_congr_right fun hpage => ?_) Iff.rfl
    rw [hbyte _ (by omega), show first * 4096 + (v.bits.toNat - first * 4096) = v.bits.toNat by omega]

theorem Loads.trans {P P' : MapArea → Prop} {S S' : VirtAddr → MemFlags × BitVec 8 → Prop}
    {r r' : MemorySet × Machine} (h : Loads others ms m P S r) (h' : Loads others r.1 r.2 P' S' r') :
    Loads others ms m (fun a => P a ∨ P' a) (fun v e => S v e ∨ S' v e) r' := by
  refine ⟨h'.sound, h'.owns, fun a ha => ?_, fun v e hv => ?_⟩
  · rcases h'.areas a ha with ha | ha
    · exact (h.areas a ha).imp_right .inl
    · exact .inr (.inr ha)
  · rw [h'.read v e hv, h.read v e hv]
    tauto

/-- The area of a segment is made, the data is written to it, and it is inserted. -/
theorem loadSegment_eq (h : ph.Valid) (ms : MemorySet) (m : Machine) : ∃ area : MapArea,
    area.At ph.first ph.count ∧ area.flags = ph.flags ∧ area.Blank ∧ ms.loadSegment ph m =
      (area.writeData m (pageOffset ph.virtualAddr PAGE_SIZE) ph.data >>= fun r => ms.insert r.1 r.2) := by
  have hbelow := h.below
  rw [Os.USER_STACK_TOP, Os.USER_STACK_SIZE] at hbelow
  have hstop : (ph.virtualAddr + ph.memSize).toNat = ph.virtualAddr.toNat + ph.memSize.toNat := by
    rw [BitVec.toNat_add]
    omega
  have hdown : (alignDown ph.virtualAddr PAGE_SIZE).toNat = ph.first * 4096 := by
    rw [toNat_alignDown, Segment.first]
    omega
  have hup : (alignUp (ph.virtualAddr + ph.memSize) PAGE_SIZE).toNat =
      (ph.virtualAddr.toNat + ph.memSize.toNat + 4095) / 4096 * 4096 := by
    rw [toNat_alignUp (by omega), hstop]
  have hsize : (alignUp (ph.virtualAddr + ph.memSize) PAGE_SIZE - alignDown ph.virtualAddr PAGE_SIZE).toNat =
      ph.count * 4096 := by
    rw [Segment.first] at hdown
    rw [BitVec.toNat_sub_of_le (by rw [BitVec.le_def]; omega), hdown, hup, Segment.count]
    omega
  have hlow : (ph.first + ph.count) * 4096 < 2 ^ 48 := by
    rw [Segment.first, Segment.count]
    omega
  have hva : VirtAddr.new ph.virtualAddr = .ok ⟨ph.virtualAddr⟩ := new_eq_ok.mpr ⟨rfl, .inl (by omega)⟩
  have hend : VirtAddr.new (ph.virtualAddr + ph.memSize) = .ok ⟨ph.virtualAddr + ph.memSize⟩ :=
    new_eq_ok.mpr ⟨rfl, .inl (by omega)⟩
  obtain ⟨area, hnew, hat, hflags, hblank⟩ := MapArea.newFramed_at ⟨alignDown ph.virtualAddr PAGE_SIZE⟩
    ph.flags hdown hsize hlow
  refine ⟨area, hat, hflags, hblank, ?_⟩
  rw [loadSegment, hva, hend]
  change (MapArea.newFramed ⟨alignDown ph.virtualAddr PAGE_SIZE⟩
    (alignUp (ph.virtualAddr + ph.memSize) PAGE_SIZE - alignDown ph.virtualAddr PAGE_SIZE) ph.flags >>= _) = _
  rw [hnew]
  rfl

theorem loadSegment_loads (h : ms.Sound m) (ho : m.Owns others ms.frames) (hvalid : ph.Valid)
    (hspares : ms.Spares ph.first ph.count) : Ensures (ms.loadSegment ph m)
      (Loads others ms m (fun a => a.At ph.first ph.count) (PagesShow ph.first ph.count ph.flags ph.byte))
      (· = .noFrame) := by
  obtain ⟨area, hat, hflags, hblank, heq⟩ := loadSegment_eq hvalid ms m
  have hpos := hvalid.pos
  have hfile := hvalid.file
  have hoffset := toNat_pageOffset ph.virtualAddr
  have hsize := hat.size
  have hnil : m.Owns others (area.frames ++ ms.frames) := by
    rw [hblank.frames]
    exact ho
  rw [heq]
  have hcount : ph.first * 4096 + ph.count * 4096 ≥ ph.virtualAddr.toNat + ph.memSize.toNat := by
    rw [Segment.first, Segment.count]
    omega
  have hfirst : ph.virtualAddr.toNat = ph.first * 4096 + ph.virtualAddr.toNat % 4096 := by
    rw [Segment.first]
    omega
  refine (MapArea.writeData_bytes hblank.framed hblank.within hnil.focus hat.fits
    (fun k hk => hat.valid (by rwa [hat.pages] at hk)) (by omega) (by omega)).bind ?_
  rintro ⟨area₁, m₁⟩ ⟨hsame, hwithin, ho₁, hkeeps, hbytes⟩
  have hkept : ∀ f ∈ ms.frames, m₁.memory f = m.memory f := fun f hf => hkeeps f (.inr hf)
  have hsound := h.congr fun t ht => hkept t (List.mem_append_left _ ht)
  have hbyte : ∀ g < ph.count * 4096, area₁.byteAt m₁ g = ph.byte (ph.first * 4096 + g) := by
    intro g hg
    rw [hbytes g (by omega), MapArea.byteAt_of_frames hblank.frames, Segment.byte, hoffset]
    refine if_congr (by omega) ?_ rfl
    congr 1
    omega
  refine (hspares.insert hsound (hat.of_same hsame) hvalid.count_pos hsame.framed hwithin
    ((hnil.unfocus ho₁).perm List.perm_append_comm) hbyte).mono fun r hr => ?_
  rw [hsame.flags, hflags] at hr
  exact ⟨hr.sound, hr.owns, hr.areas, fun v e hv => by rw [hr.read v e hv, h.read_congr hkept]⟩

/-- Room is left for what has no page in common with what was loaded. -/
theorem Spares.of_loads {f c : ℕ} {S : VirtAddr → MemFlags × BitVec 8 → Prop} {r : MemorySet × Machine}
    (h : Loads others ms m (fun a => a.At f c) S r) (hspares : ms.Spares first count) (hc : 0 < c)
    (hapart : f + c ≤ first ∨ first + count ≤ f) : r.1.Spares first count := by
  intro a ha
  rcases h.areas a ha with ha | ha
  · exact hspares a ha
  · exact ⟨f, c, ha, hc, hapart⟩

/-- Two segments without a common page. -/
theorem apart_of_disjoint {ph' : Segment} (h : ph.Valid) (h' : ph'.Valid)
    (hdisj : Disjoint ph.pageNumbers ph'.pageNumbers) :
    ph.first + ph.count ≤ ph'.first ∨ ph'.first + ph'.count ≤ ph.first := by
  have hpos := h.count_pos
  have hpos' := h'.count_pos
  by_contra hover
  refine Set.disjoint_left.mp hdisj (h.mem_pageNumbers.mpr (?_ : _ ∧ max ph.first ph'.first < _))
    (h'.mem_pageNumbers.mpr ?_)
  · omega
  · omega

theorem loadSegments_loads {l : List Segment} (h : ms.Sound m) (ho : m.Owns others ms.frames)
    (hvalid : ∀ ph ∈ l, ph.Valid) (hdisj : l.Pairwise fun a b => Disjoint a.pageNumbers b.pageNumbers)
    (hspares : ∀ ph ∈ l, ms.Spares ph.first ph.count) : Ensures (ms.loadSegments m l)
      (Loads others ms m (fun a => ∃ ph ∈ l, a.At ph.first ph.count)
        fun v e => ∃ ph ∈ l, PagesShow ph.first ph.count ph.flags ph.byte v e) (· = .noFrame) := by
  induction l generalizing ms m with
  | nil =>
    refine Ensures.pure ⟨h, ho, fun a ha => .inl ha, fun v e _ => (or_iff_right ?_).symm⟩
    rintro ⟨ph, hph, -⟩
    exact absurd hph List.not_mem_nil
  | cons ph l ih =>
    obtain ⟨hapart, hdisj⟩ := List.pairwise_cons.mp hdisj
    have hph := hvalid ph List.mem_cons_self
    refine (loadSegment_loads h ho hph (hspares ph List.mem_cons_self)).bind fun r hr => ?_
    refine (ih hr.sound hr.owns (fun b hb => hvalid b (List.mem_cons_of_mem _ hb)) hdisj fun b hb => ?_).mono
      fun r' hr' => ?_
    · exact (hspares b (List.mem_cons_of_mem _ hb)).of_loads hr hph.count_pos
        (apart_of_disjoint hph (hvalid b (List.mem_cons_of_mem _ hb)) (hapart b hb))
    · have htrans := hr.trans hr'
      have hcons : ∀ {p : Segment → Prop}, (∃ b ∈ ph :: l, p b) ↔ p ph ∨ ∃ b ∈ l, p b := by simp
      refine ⟨htrans.sound, htrans.owns, fun a ha => ?_, fun v e hv => ?_⟩
      · rw [hcons]
        exact htrans.areas a ha
      · rw [hcons]
        exact htrans.read v e hv

/-- The stack of the first task. -/
theorem insertStack_loads (h : ms.Sound m) (ho : m.Owns others ms.frames)
    (hspares : ms.Spares ((Os.USER_STACK_TOP - Os.USER_STACK_SIZE) / 4096) 4) :
    Ensures (ms.insertStack (Os.USER_STACK_TOP - Os.USER_STACK_SIZE) m)
      (Loads others ms m (fun a => a.At ((Os.USER_STACK_TOP - Os.USER_STACK_SIZE) / 4096) 4)
        (PagesShow ((Os.USER_STACK_TOP - Os.USER_STACK_SIZE) / 4096) 4 ⟨true, true, false, true, false⟩ fun _ => 0))
      (· = .noFrame) := by
  have hva : VirtAddr.new (BitVec.ofNat 64 (Os.USER_STACK_TOP - Os.USER_STACK_SIZE)) =
      .ok ⟨BitVec.ofNat 64 (Os.USER_STACK_TOP - Os.USER_STACK_SIZE)⟩ := by rfl
  have hstart : (BitVec.ofNat 64 (Os.USER_STACK_TOP - Os.USER_STACK_SIZE)).toNat =
      (Os.USER_STACK_TOP - Os.USER_STACK_SIZE) / 4096 * 4096 := by decide
  have hsize : (BitVec.ofNat 64 Os.USER_STACK_SIZE).toNat = 4 * 4096 := by decide
  obtain ⟨area, hnew, hat, hflags, hblank⟩ := MapArea.newFramed_at
    ⟨BitVec.ofNat 64 (Os.USER_STACK_TOP - Os.USER_STACK_SIZE)⟩ ⟨true, true, false, true, false⟩ hstart hsize (by decide)
  rw [insertStack, hva]
  change Ensures (MapArea.newFramed ⟨BitVec.ofNat 64 (Os.USER_STACK_TOP - Os.USER_STACK_SIZE)⟩
    (BitVec.ofNat 64 Os.USER_STACK_SIZE) ⟨true, true, false, true, false⟩ >>= fun area => ms.insert area m) _ _
  rw [hnew]
  change Ensures (ms.insert area m) _ _
  rw [← hflags]
  refine hspares.insert h hat (by decide) hblank.framed hblank.within ?_ fun g _ => ?_
  · rw [hblank.frames, List.append_nil]
    exact ho
  · exact MapArea.byteAt_of_frames hblank.frames m g

/-! How many frames are taken -/

theorem loadSegment_takes (h : ph.Valid) (ms : MemorySet) (m : Machine) :
    m.Takes Prod.snd (ph.count * 5) (ms.loadSegment ph m) := by
  obtain ⟨area, hat, -, -, heq⟩ := loadSegment_eq h ms m
  have hsize : area.size.toNat ≤ 2 ^ 63 := by
    have := hat.size
    have := hat.low
    omega
  rw [heq]
  refine (Takes.bind (k := ph.count * 4) (MapArea.writeData_takes hsize m _ _) fun r hr => ?_).mono ?_
  · have hpages : r.1.pages = ph.count := by
      rw [← hat.pages]
      exact (MapArea.writeData_pages area m _ _).post_of_ok hr
    rw [← hpages]
    exact insert_takes ms r.1 r.2
  · rw [hat.pages]
    omega

/-- The frames that a program may take. -/
def loadSize (l : List Segment) : ℕ := (l.map fun ph => ph.count * 5).sum

theorem loadSegments_takes {l : List Segment} (h : ∀ ph ∈ l, ph.Valid) (ms : MemorySet) (m : Machine) :
    m.Takes Prod.snd (loadSize l) (ms.loadSegments m l) := by
  induction l generalizing ms m with
  | nil => exact Takes.pure le_rfl
  | cons ph l ih =>
    refine (Takes.bind (loadSegment_takes (h ph List.mem_cons_self) ms m) fun r _ =>
      ih (fun b hb => h b (List.mem_cons_of_mem _ hb)) r.1 r.2).mono ?_
    rw [loadSize, loadSize, List.map_cons, List.sum_cons]

theorem insertStack_takes (ms : MemorySet) (ustackBottom : ℕ) (m : Machine) :
    m.Takes Prod.snd 16 (ms.insertStack ustackBottom m) := by
  refine Takes.bind_free (fun _ he => new_error he) fun v _ => ?_
  refine Takes.bind_free (fun e he => ?_) fun area harea => ?_
  · rw [MapArea.newFramed] at he
    split_ifs at he
    cases he
    exact fun h => by cases h
  · have hpages : area.pages = 4 := by
      obtain ⟨-, hsize, -⟩ := (MapArea.newFramed_spec _ _ _).post_of_ok harea
      rw [MapArea.pages, hsize]
      decide
    refine (insert_takes ms area m).mono ?_
    rw [hpages]

/-! The file -/

theorem loadPrograms_eq (ms : MemorySet) (m : Machine) (phs : List ProgramHeader) :
    ms.loadPrograms m phs = ms.loadSegments m (phs.filterMap fun
      | .load ph => some ph
      | .other => none) := by
  induction phs generalizing ms m with
  | nil => rfl
  | cons p phs ih =>
    cases p with
    | other => exact ih ms m
    | load ph =>
      change (ms.loadSegment ph m >>= fun r => r.1.loadPrograms r.2 phs) = _
      simp only [ih]
      rfl

/-- A program for this machine is loaded as its segments are. -/
theorem loadElf_eq {elf : ElfFile} (hclass : elf.cls = .sixtyFour) (htype : elf.type = .executable)
    (hmachine : elf.machine = .aArch64) (ms : MemorySet) (m : Machine) : ms.loadElf elf m =
      (ms.loadUser elf.segments m >>= fun r =>
        pure ((elf.entryPoint, BitVec.ofNat 64 Os.USER_STACK_TOP), r)) := by
  rw [loadElf, if_neg (not_not.mpr hclass), if_neg (not_not.mpr htype), if_neg (not_not.mpr hmachine), loadPrograms_eq,
    loadUser, bind_assoc]
  rfl

theorem read_of_empty (h : ms.Sound m) (hempty : ms.areas = .empty) (v : VirtAddr) : ms.read m v = none := by
  rw [Option.eq_none_iff_forall_ne_some]
  intro e he
  obtain ⟨area, harea, -⟩ := h.read_eq_some.mp he
  rw [hempty] at harea
  exact absurd harea List.not_mem_nil

/-- The segments and the stack. -/
theorem loadUser_loads {l : List Segment} (h : ms.Sound m) (ho : m.Owns others ms.frames) (hempty : ms.areas = .empty)
    (hvalid : ∀ ph ∈ l, ph.Valid) (hdisj : l.Pairwise fun a b => Disjoint a.pageNumbers b.pageNumbers) :
    Ensures (ms.loadUser l m) (fun r => ∀ v e, v.bits.toNat < 2 ^ 48 → (r.1.read r.2 v = some e ↔
      (∃ ph ∈ l, PagesShow ph.first ph.count ph.flags ph.byte v e) ∨
      PagesShow ((Os.USER_STACK_TOP - Os.USER_STACK_SIZE) / 4096) 4 ⟨true, true, false, true, false⟩ (fun _ => 0) v e))
      (· = .noFrame) := by
  have hnone : ∀ f c, ms.Spares f c := by
    intro f c a ha
    rw [hempty] at ha
    exact absurd ha List.not_mem_nil
  refine (loadSegments_loads h ho hvalid hdisj fun ph _ => hnone _ _).bind fun r hr => ?_
  have hspares : r.1.Spares ((Os.USER_STACK_TOP - Os.USER_STACK_SIZE) / 4096) 4 := by
    intro a ha
    rcases hr.areas a ha with ha | ⟨ph, hph, hat⟩
    · exact hnone _ _ a ha
    · have hbelow := (hvalid ph hph).below
      have hpos := (hvalid ph hph).pos
      refine ⟨_, _, hat, (hvalid ph hph).count_pos, .inl ?_⟩
      rw [Segment.first, Segment.count]
      rw [Os.USER_STACK_TOP, Os.USER_STACK_SIZE] at hbelow ⊢
      omega
  refine (insertStack_loads hr.sound hr.owns hspares).mono fun r' hr' v e hv => ?_
  rw [(hr.trans hr').read v e hv, read_of_empty h hempty v]
  exact or_iff_left fun he => by cases he

theorem loadUser_takes {l : List Segment} (h : ∀ ph ∈ l, ph.Valid) (ms : MemorySet) (m : Machine) :
    m.Takes Prod.snd (loadSize l + 16) (ms.loadUser l m) :=
  (loadSegments_takes h ms m).bind fun r _ => insertStack_takes r.1 _ r.2

end MemorySet

/-- An address in the stack of 16 KiB. -/
def InStack (v : VirtAddr) : Prop :=
  Os.USER_STACK_TOP - Os.USER_STACK_SIZE ≤ v.bits.toNat ∧ v.bits.toNat < Os.USER_STACK_TOP

/-- What is in memory when a program has been loaded: the bytes of the file in the pages of each
segment, and zeros. -/
structure MemorySet.Loaded (ms : MemorySet) (m : Machine) (l : List Segment) (v : VirtAddr) : Prop where
  mapped : (ms.read m v).isSome ↔ (∃ ph ∈ l, v.bits.toNat / 4096 ∈ ph.pageNumbers) ∨ InStack v
  segment : ∀ ph ∈ l, v.bits.toNat / 4096 ∈ ph.pageNumbers → ms.read m v = some (ph.flags, ph.byte v.bits.toNat)
  stack : InStack v → ms.read m v = some (⟨true, true, false, true, false⟩, 0)

/-- A program is loaded into an empty set, unless there are fewer frames left than it may take. -/
theorem load_user_loads {ms : MemorySet} {m : Machine} (hb : Built ms m) (hempty : ms.areas = .empty) {elf : ElfFile}
    (hclass : elf.cls = .sixtyFour) (htype : elf.type = .executable) (hmachine : elf.machine = .aArch64)
    (hvalid : ∀ ph ∈ elf.segments, ph.Valid)
    (hdisj : elf.segments.Pairwise fun a b => Disjoint a.pageNumbers b.pageNumbers) :
    (∀ e, ms.loadElf elf m = .error e → e = .noFrame ∧ m.available < MemorySet.loadSize elf.segments + 16) ∧
    ∀ r ms' m', ms.loadElf elf m = .ok (r, ms', m') →
      r = (elf.entryPoint, BitVec.ofNat 64 Os.USER_STACK_TOP) ∧
      ∀ v, v.bits.toNat < 2 ^ 48 → ms'.Loaded m' elf.segments v := by
  obtain ⟨hsound, others, ho⟩ := hb.invariant
  have hload := (MemorySet.loadUser_loads hsound ho hempty hvalid hdisj).and_fails
    (MemorySet.loadUser_takes hvalid ms m)
  rw [MemorySet.loadElf_eq hclass htype hmachine]
  cases hr : ms.loadUser elf.segments m with
  | error e =>
    obtain ⟨hfail, htakes⟩ := hload.fails_of_error hr
    refine ⟨?_, fun r ms' m' h => (by cases h)⟩
    rintro _ ⟨⟩
    exact ⟨hfail, htakes hfail⟩
  | ok r =>
    obtain ⟨hread, -⟩ := hload.post_of_ok hr
    refine ⟨fun e h => (by cases h), ?_⟩
    rintro _ _ _ ⟨⟩
    refine ⟨rfl, fun v hv => ?_⟩
    have hstack : InStack v ↔ (Os.USER_STACK_TOP - Os.USER_STACK_SIZE) / 4096 ≤ v.bits.toNat / 4096 ∧
        v.bits.toNat / 4096 < (Os.USER_STACK_TOP - Os.USER_STACK_SIZE) / 4096 + 4 := by
      rw [InStack, Os.USER_STACK_TOP, Os.USER_STACK_SIZE]
      omega
    refine ⟨?_, fun ph hph hpage => ?_, fun hin => (hread v _ hv).mpr (.inr ⟨hstack.mp hin, rfl⟩)⟩
    · rw [Option.isSome_iff_exists]
      constructor
      · rintro ⟨e, he⟩
        rcases (hread v e hv).mp he with ⟨ph, hph, hpage, -⟩ | ⟨hpage, -⟩
        · exact .inl ⟨ph, hph, (hvalid ph hph).mem_pageNumbers.mpr hpage⟩
        · exact .inr (hstack.mpr hpage)
      · rintro (⟨ph, hph, hpage⟩ | hin)
        · exact ⟨_, (hread v _ hv).mpr (.inl ⟨ph, hph, (hvalid ph hph).mem_pageNumbers.mp hpage, rfl⟩)⟩
        · exact ⟨_, (hread v _ hv).mpr (.inr ⟨hstack.mp hin, rfl⟩)⟩
    · exact (hread v _ hv).mpr (.inl ⟨ph, hph, (hvalid ph hph).mem_pageNumbers.mp hpage, rfl⟩)

theorem code_length_lt : ([1, 2, 3, 4] : List (BitVec 8)).length < 2 ^ 63 := by decide

/-- A program with a page of code and two pages of data. -/
def twoSegments : ElfFile where
  cls := .sixtyFour
  type := .executable
  machine := .aArch64
  entryPoint := 0x1000
  programIter := [.load ⟨0x1000, 8, true, false, true, ⟨[1, 2, 3, 4], code_length_lt⟩⟩, .other,
    .load ⟨0x2ff0, 0x20, true, true, false, ⟨[5, 6], by decide⟩⟩]

/-- It is loaded into a new set: a byte of the data, one after the end of the code, and one of the
stack. -/
theorem load_user_loads_two : ∃ ms m r ms' m', Built ms m ∧ ms.loadElf twoSegments m = .ok (r, ms', m') ∧
    ms'.read m' ⟨0x2ff1⟩ = some (⟨true, true, false, true, false⟩, 6) ∧
    ms'.read m' ⟨0x1004⟩ = some (⟨true, false, true, true, false⟩, 0) ∧
    ms'.read m' ⟨0x7fffffffc000⟩ = some (⟨true, true, false, true, false⟩, 0) := by
  have hnew : (MemorySet.new frames32).toOption.any
      (fun r => r.1.areas.entries.isEmpty && r.2.available == 31) = true := by decide
  obtain ⟨⟨ms, m⟩, hms, htest⟩ := (Option.any_eq_true ..).mp hnew
  have hbuilt : Built ms m := .new frames32_ok (ok_of_toOption hms)
  rw [Bool.and_eq_true, beq_iff_eq, List.isEmpty_iff] at htest
  have hempty : ms.areas = .empty := by
    obtain ⟨pt, ⟨entries, sorted⟩⟩ := ms
    obtain ⟨rfl, -⟩ := htest
    rfl
  have hvalid : ∀ ph ∈ twoSegments.segments, ph.Valid := by
    intro ph hph
    rcases List.mem_cons.mp hph with rfl | hph
    · exact ⟨by decide, by decide, by decide⟩
    · rw [List.mem_singleton.mp hph]
      exact ⟨by decide, by decide, by decide⟩
  have hdisj : twoSegments.segments.Pairwise fun a b => Disjoint a.pageNumbers b.pageNumbers := by
    refine List.pairwise_cons.mpr ⟨fun b hb => ?_, List.pairwise_singleton _ _⟩
    rw [List.mem_singleton.mp hb, Set.disjoint_left]
    rintro n ⟨x, -, hx, rfl⟩ ⟨y, hy, -, heq⟩
    change x < 0x1000 + 8 at hx
    change 0x2ff0 ≤ y at hy
    omega
  obtain ⟨hfails, hloads⟩ := load_user_loads hbuilt hempty rfl rfl rfl hvalid hdisj
  cases hr : ms.loadElf twoSegments m with
  | error e =>
    have hless := (hfails e hr).2
    rw [htest.2] at hless
    exact absurd hless (by decide)
  | ok r =>
    obtain ⟨r, ms', m'⟩ := r
    have hloaded := (hloads r ms' m' hr).2
    refine ⟨ms, m, r, ms', m', hbuilt, hr, ?_, ?_, ?_⟩
    · exact (hloaded ⟨0x2ff1⟩ (by decide)).segment _ (List.mem_cons_of_mem _ List.mem_cons_self)
        ⟨0x2ff1, by decide, by decide, rfl⟩
    · exact (hloaded ⟨0x1004⟩ (by decide)).segment _ List.mem_cons_self ⟨0x1004, by decide, by decide, rfl⟩
    · exact (hloaded ⟨0x7fffffffc000⟩ (by decide)).stack ⟨by decide, by decide⟩

end RCore.Mm
