import RCore.Proofs.EasyFs.Cached
import RCore.Proofs.EasyFs.Format
import RCore.Sanity.EasyFs.Handles

/-! The block cache is transparent, and what a call of the file system has written is on
the device when the call returns. -/

namespace RCore.EasyFs

open RCore.Lib

variable {dev : ℕ} {s s' : CacheState} {a a' : Disk}

/-- The cache is coherent after any calls of the manager. -/
theorem CacheRun.coherent (h : CacheRun dev s a) : Coherent dev s a := by
  induction h with
  | init devices => exact coherent_new devices
  | get h hroom hg ih =>
    obtain ⟨p, s₁, hget, hcoh, -⟩ := ih.getBlockCache hroom
    rw [hg, Option.some.injEq, Prod.mk.injEq] at hget
    rw [hget.2]
    exact hcoh
  | modify h hp hc f ih =>
    obtain ⟨c', hc', -, hcache⟩ := ih.handle hp
    rw [hc, Option.some.injEq] at hc'
    rw [hc', hcache]
    apply (ih.getMut _).store hp
    intro c hc
    rw [getMut_arcs, if_pos rfl, Option.map_eq_some_iff] at hc
    obtain ⟨c', -, rfl⟩ := hc
    rfl
  | release h hp ih => exact ih.release hp
  | syncAll h ih => exact ih.syncAll.1

/-- A call over a cache that nothing is left to be written back from. -/
theorem runCached_prog (c : FsCall) (h : Coherent dev s a) (hhandles : s.handles = [])
    (hclean : s.Clean) :
    (c.prog.run [] a = none → runCached dev c.prog [] s = none) ∧
    ∀ r a', c.prog.run [] a = some (r, a') → ∃ s', runCached dev c.prog [] s = some (r, s') ∧
      Coherent dev s' a' ∧ s'.handles = [] ∧ s'.Clean := by
  have hspec := simulates dev c.prog 3 s a c.within_prog (by rw [hhandles]; simp) h
  rw [hhandles] at hspec
  refine ⟨hspec.1, fun r a' hr => ?_⟩
  obtain ⟨s', hm⟩ := hspec.2 r a' hr
  have hrun := hm.run
  rw [hhandles] at hrun
  exact ⟨s', hrun, hm.coherent, hm.handles.trans hhandles,
    hm.settled true true c.settles_prog (fun _ => hclean) rfl⟩

/-- The same calls return over the cache as on the array, with the same results. -/
theorem runCached_fst (c : FsCall) (h : Coherent dev s a) (hhandles : s.handles = [])
    (hclean : s.Clean) :
    (runCached dev c.prog [] s).map Prod.fst = (c.prog.run [] a).map Prod.fst := by
  obtain ⟨hnone, hsome⟩ := runCached_prog c h hhandles hclean
  cases hr : c.prog.run [] a with
  | none => rw [hnone hr]; rfl
  | some res =>
    obtain ⟨s', hrun, -⟩ := hsome res.1 res.2 hr
    rw [hrun]
    rfl

/-- After any calls of the file system the cache is coherent, all handles have been
released and nothing is left to be written back. -/
theorem FsRun.settled (h : FsRun dev s a) : Coherent dev s a ∧ s.handles = [] ∧ s.Clean := by
  induction h with
  | init devices => exact ⟨coherent_new devices, rfl, clean_new devices⟩
  | @call s s' a a' c r r' h hc hp ih =>
    obtain ⟨hcoh, hhandles, hclean⟩ := ih
    obtain ⟨s₁, hrun, hrest⟩ := (runCached_prog c hcoh hhandles hclean).2 r' a' hp
    rw [hc, Option.some.injEq, Prod.mk.injEq] at hrun
    rw [hrun.2]
    exact hrest

/-- The cache is transparent and durable: its handles read what a plain array of blocks
would, the device holds that array after `block_cache_sync_all`, and so it does after
every call of the file system, which cannot tell a running cache from an empty one. -/
theorem cache_transparency (dev : ℕ) :
    (∀ s a, CacheRun dev s a →
      (∀ p q c c', s.arcs p = some c → s.arcs q = some c' → c.blockId = c'.blockId → p = q) ∧
      s.queue.length ≤ 16 ∧
      (∀ id p, (id, p) ∈ s.handles → ∃ c, s.arcs p = some c ∧ c.cache = a id) ∧
      (∀ id, ((∀ e ∈ s.queue, e.1 ≠ id) → s.handles.length ≤ 15) →
        ∃ p s', s.getBlockCache id dev = some (p, s')) ∧
      s.syncAll.devices dev = a) ∧
    (∀ s a, FsRun dev s a → s.devices dev = a ∧ ∀ c : FsCall,
      (runCached dev c.prog [] s).map Prod.fst = (c.prog.run [] a).map Prod.fst ∧
      (runCached dev c.prog [] (.new s.devices)).map Prod.fst = (c.prog.run [] a).map Prod.fst ∧
      ∀ r s', runCached dev c.prog [] s = some (r, s') →
        ∃ a', c.prog.run [] a = some (r, a') ∧ FsRun dev s' a' ∧ s'.devices dev = a') := by
  refine ⟨fun s a hrun => ?_, fun s a hrun => ?_⟩
  · have h := hrun.coherent
    refine ⟨fun p q c c' hp hq hid => ?_, h.length, fun id p hp => ?_, fun id hroom => ?_, ?_⟩
    · exact congrArg Prod.snd (h.eq_of_fst (h.live p c hp).1 (h.live q c' hq).1 hid)
    · obtain ⟨c, hc, -, hcache⟩ := h.handle hp
      exact ⟨c, hc, hcache⟩
    · obtain ⟨p, s', hget, -⟩ := h.getBlockCache hroom
      exact ⟨p, s', hget⟩
    · obtain ⟨hcoh, -, hclean⟩ := h.syncAll
      exact hcoh.device_eq hclean
  · obtain ⟨hcoh, hhandles, hclean⟩ := hrun.settled
    have hdev := hcoh.device_eq hclean
    refine ⟨hdev, fun c => ⟨runCached_fst c hcoh hhandles hclean, ?_, fun r s' hr => ?_⟩⟩
    · rw [← hdev]
      exact runCached_fst c (coherent_new s.devices) rfl (clean_new s.devices)
    · obtain ⟨hnone, hsome⟩ := runCached_prog c hcoh hhandles hclean
      cases hp : c.prog.run [] a with
      | none =>
        rw [hnone hp] at hr
        cases hr
      | some res =>
        obtain ⟨s₁, hrun₁, hcoh₁, -, hclean₁⟩ := hsome res.1 res.2 hp
        rw [hr, Option.some.injEq, Prod.mk.injEq] at hrun₁
        obtain ⟨hr₁, rfl⟩ := hrun₁
        exact ⟨res.2, by rw [hr₁], hrun.call hr hp, hcoh₁.device_eq hclean₁⟩

/-- Formatting a device of 1030 blocks through an empty cache. -/
theorem cache_transparency_format :
    ∃ fs s a, (EasyFileSystem.create 1030 1).run [] (fun _ => 0) = some (fs, a) ∧
      runCached 7 (EasyFileSystem.create 1030 1) [] (.new fun _ _ => 0) = some (fs, s) ∧
      s.devices 7 = a := by
  obtain ⟨fs, a, hr⟩ := run_create_fs_total (a := ⟨1024, 1, 3⟩) (fun _ => 0)
    (show (EasyFileSystem.areas 1030 1).run [] _ = some (_, _) from rfl) (by omega)
  obtain ⟨-, hcalls⟩ := (cache_transparency 7).2 _ _ (.init fun _ _ => 0)
  obtain ⟨hsame, -, hrun⟩ := hcalls (.format 1030 1)
  have hfst : (runCached 7 (EasyFileSystem.create 1030 1) [] (.new fun _ _ => 0)).map Prod.fst =
      some fs := hsame.trans (by exact congrArg (Option.map Prod.fst) hr)
  obtain ⟨⟨fs', s⟩, hs, rfl⟩ := Option.map_eq_some_iff.mp hfst
  obtain ⟨a', ha', -, hdev⟩ := hrun fs' s hs
  obtain rfl : a = a' := congrArg Prod.snd (Option.some.inj (hr.symm.trans ha'))
  exact ⟨fs', s, a, hr, hs, hdev⟩

end RCore.EasyFs
