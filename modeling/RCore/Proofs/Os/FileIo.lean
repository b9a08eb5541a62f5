import RCore.Lib.Utf8
import RCore.Proofs.EasyFs.Chop
import RCore.Proofs.EasyFs.Contents
import RCore.Proofs.EasyFs.Discipline
import RCore.Proofs.Os.Pipe
import RCore.Sanity.Os.FileIo

/-! What `sys_write` and `sys_read` move between user memory and files. -/

namespace RCore.Os

open RCore.Lib RCore.Mm Logged Memory

/-! Files -/

section inodes

open EasyFs

variable {v : Volume} {d d' : Disk} {id n : ℕ} {x : DiskInode} {file : OSInode} {s : State}

/-- Pieces that have been written one after the other have been taken whole, and the file is at
the end of them then. -/
theorem foldlM_write {pieces : List (List UInt8)} (hs : Sound v (v.fs.inodes d) [] d)
    (hx : v.fs.inodes d id = some x) (hfile : file.inode = Inode.ofId v.fs id)
    (hpos : ∀ piece ∈ pieces, piece ≠ []) (hend : file.offset + pieces.flatten.length ≤ 16540 * 512)
    (hr : (Inode.writePieces v.fs (Inode.ofId v.fs id) file.offset pieces).run [] d = some (n, d')) :
    pieces.foldlM (writeChunk (OSInode.write v.fs)) (file, d) =
      some ({ file with offset := file.offset + pieces.flatten.length }, d') := by
  induction pieces generalizing d x file n with
  | nil =>
    cases hr
    rfl
  | cons piece pieces ih =>
    rw [List.flatten_cons, List.length_append] at hend ⊢
    obtain ⟨r, d₁, hfirst, hr⟩ := Prog.run_bind_eq_some hr
    obtain ⟨m, d₂, hrest, hr⟩ := Prog.run_bind_eq_some hr
    cases hr
    have hlen := List.length_pos_iff.mpr (hpos piece List.mem_cons_self)
    obtain ⟨rfl, -, x', hdone⟩ := run_writeAt_some hs hx hlen (by omega) hfirst
    have hx' : v.fs.inodes d₁ id = some x' := by rw [hdone.inodes, Function.update_self]
    have hcall : (Inode.writeAt v.fs file.inode file.offset piece).run [] d = some (piece.length, d₁) := hfile ▸ hfirst
    have hwrite : writeChunk (OSInode.write v.fs) (file, d) piece =
        some ({ file with offset := file.offset + piece.length }, d₁) := by
      simp [writeChunk, OSInode.write, hcall]
    rw [List.foldlM_cons, hwrite]
    dsimp only [Option.bind_eq_bind, Option.bind_some]
    have hpieces := ih (n := m) hdone.sound hx'
      (show OSInode.inode { file with offset := file.offset + piece.length } = _ from hfile)
      (fun p hp => hpos p (List.mem_cons_of_mem _ hp)) (by dsimp only; omega) hrest
    rw [hpieces, ← Nat.add_assoc]

theorem read_eq (hinv : Invariant v s) (hx : v.fs.inodes s.disk id = some x)
    (hfile : file.inode = Inode.ofId v.fs id) (len : ℕ) :
    OSInode.read len (file, s.disk) = some (((content s.disk x).drop file.offset).take len,
      { file with offset := file.offset + (((content s.disk x).drop file.offset).take len).length }, s.disk) := by
  have hcall := hinv.run_readAt hx file.offset len
  rw [← hfile] at hcall
  simp [OSInode.read, hcall]

/-- A round of `read_all`. -/
theorem readAll_succ (hinv : Invariant v s) (hx : v.fs.inodes s.disk id = some x)
    (hfile : file.inode = Inode.ofId v.fs id) (rounds : ℕ) (bytes : List UInt8) :
    OSInode.readAll (rounds + 1) bytes (file, s.disk) =
      if ((content s.disk x).drop file.offset).take 512 = [] then some (bytes, file, s.disk)
      else OSInode.readAll rounds (bytes ++ ((content s.disk x).drop file.offset).take 512)
        ({ file with offset := file.offset + (((content s.disk x).drop file.offset).take 512).length }, s.disk) := by
  have hread := read_eq hinv hx hfile 512
  generalize ((content s.disk x).drop file.offset).take 512 = part at hread ⊢
  rw [OSInode.readAll, hread]
  dsimp only [Option.bind_eq_bind, Option.bind_some]
  by_cases hpart : part = []
  · subst hpart
    rfl
  · rw [if_neg (fun hlen => hpart (List.length_eq_zero_iff.mp hlen)), if_neg hpart]

/-- `read_all` returns the rest of the file, after as many rounds as there are bytes, at most,
and one. -/
theorem readAll_eq (hinv : Invariant v s) (hx : v.fs.inodes s.disk id = some x)
    (hfile : file.inode = Inode.ofId v.fs id) {rounds : ℕ}
    (hrounds : (content s.disk x).length - file.offset < rounds) (bytes : List UInt8) :
    OSInode.readAll rounds bytes (file, s.disk) =
      some (bytes ++ (content s.disk x).drop file.offset,
        { file with offset := file.offset + ((content s.disk x).drop file.offset).length }, s.disk) := by
  induction rounds generalizing file bytes with
  | zero => omega
  | succ rounds ih =>
    rw [readAll_succ hinv hx hfile]
    split_ifs with hend
    · have hnil : (content s.disk x).drop file.offset = [] := by
        simpa using List.take_eq_nil_iff.mp hend
      rw [hnil, List.append_nil, List.length_nil, Nat.add_zero]
    · obtain ⟨rest, hrest⟩ : ∃ l, l = (content s.disk x).drop file.offset := ⟨_, rfl⟩
      rw [← hrest] at hend ⊢
      have hlen := List.length_pos_iff.mpr hend
      have htake : (rest.take 512).length ≤ rest.length := List.length_take_le' ..
      have hcount : rest.length = (content s.disk x).length - file.offset := by rw [hrest, List.length_drop]
      have hnext : (content s.disk x).drop (file.offset + (rest.take 512).length) = rest.drop 512 := by
        rw [← List.drop_drop, ← hrest, List.length_take, drop_min_length]
      have hfile' : OSInode.inode { file with offset := file.offset + (rest.take 512).length } = Inode.ofId v.fs id :=
        hfile
      rw [ih hfile' (by dsimp only; omega)]
      dsimp only
      rw [hnext, List.append_assoc, List.take_append_drop, Nat.add_assoc, ← List.length_append,
        List.take_append_drop]

theorem buffer_write {bytes : List UInt8} (h : bytes.length ≤ 2 ^ 47) :
    Buffer (Memory.write (fun _ => none) 4096 bytes) ⟨4096⟩ bytes where
  pos := by decide
  le := by
    change 4096 + bytes.length ≤ _
    omega
  has := by
    refine write_has _ _ _ ?_
    change 4096 + bytes.length < _
    omega

end inodes

/-! Text -/

/-- What is printed is the pieces, if each of them is text. -/
theorem foldlM_print {pieces printed printed' : List (List UInt8)} :
    pieces.foldlM (writeChunk Stdout.write) printed = some printed' ↔
      (∀ piece ∈ pieces, IsText piece) ∧ printed' = printed ++ pieces := by
  induction pieces generalizing printed with
  | nil => simp [eq_comm]
  | cons piece pieces ih =>
    have hwrite : writeChunk Stdout.write printed piece =
        if (ByteArray.mk piece.toArray).validateUTF8 then some (printed ++ [piece]) else none := by
      unfold writeChunk Stdout.write
      split_ifs <;> simp
    rw [List.foldlM_cons, hwrite, List.forall_mem_cons]
    split_ifs with hpiece
    · dsimp only [Option.bind_eq_bind, Option.bind_some]
      rw [ih, and_iff_right (show IsText piece from hpiece), List.append_assoc, List.singleton_append]
    · exact iff_of_false nofun fun h => hpiece h.1.1

/-- All chunks of a text are texts if a character begins with each of them. -/
theorem isText_chunks {n : ℕ} {bytes : List UInt8} (hn : 0 < n) (h : IsText bytes) :
    (∀ piece ∈ chunks n bytes, IsText piece) ↔ ∀ k, n * k < bytes.length → Starts bytes (n * k) := by
  have hpiece : ∀ k, n * k < bytes.length → (IsText ((bytes.drop (n * k)).take n) ↔
      Starts bytes (n * k) ∧ (min (n * k + n) bytes.length = bytes.length ∨
        Starts bytes (min (n * k + n) bytes.length))) := by
    intro k hk
    rw [← h.piece_iff (by omega : n * k < min (n * k + n) bytes.length) (by omega)]
    rcases Nat.le_total (n * k + n) bytes.length with hle | hle
    · rw [Nat.min_eq_left hle, Nat.add_sub_cancel_left]
    · rw [Nat.min_eq_right hle, List.take_of_length_le (by rw [List.length_drop]; omega),
        List.take_of_length_le (by rw [List.length_drop])]
  constructor
  · intro hall k hk
    exact ((hpiece k hk).mp (hall _ ((mem_chunks hn).mpr ⟨k, hk, rfl⟩))).1
  · intro hstarts piece hmem
    obtain ⟨k, hk, rfl⟩ := (mem_chunks hn).mp hmem
    refine (hpiece k hk).mpr ⟨hstarts k hk, ?_⟩
    rcases Nat.lt_or_ge (n * k + n) bytes.length with hlt | hge
    · rw [Nat.min_eq_left hlt.le]
      exact .inr (hstarts (k + 1) hlt)
    · exact .inl (Nat.min_eq_right hge)

/-- A text is printed, without a panic, exactly if a character begins with each chunk. -/
theorem printing_iff {mem : Memory} {buf : UserPtr .u8} {bytes : List UInt8} (hbuf : Buffer mem buf bytes)
    (htext : IsText bytes) :
    (∃ printed, sysWriteFile true Stdout.write mem buf bytes.length [] = some ((bytes.length : ℤ), printed) ∧
      printed.flatten = bytes) ↔
    ∀ k, CHUNK_SIZE * k < bytes.length → Starts bytes (CHUNK_SIZE * k) := by
  have hsize : 0 < CHUNK_SIZE := by decide
  have hrun : sysWriteFile true Stdout.write mem buf bytes.length [] =
      ((chunks CHUNK_SIZE bytes).foldlM (writeChunk Stdout.write) []).map fun printed => ((bytes.length : ℤ), printed) := by
    unfold sysWriteFile
    rw [if_pos rfl, sysWriteLoop_eq hbuf (Nat.zero_le _), List.drop_zero, Option.map_map]
    rfl
  rw [← isText_chunks hsize htext, hrun]
  simp only [Option.map_eq_some_iff, foldlM_print, List.nil_append]
  constructor
  · rintro ⟨-, ⟨-, ⟨hall, -⟩, -⟩, -⟩
    exact hall
  · intro hall
    exact ⟨_, ⟨_, ⟨hall, rfl⟩, rfl⟩, flatten_chunks hsize bytes⟩

/-- 300 letters, which take two chunks. -/
theorem printing_iff_letters : ∃ printed,
    sysWriteFile true Stdout.write (Memory.write (fun _ => none) 4096 (List.replicate 300 97)) ⟨4096⟩ 300 [] =
      some (300, printed) ∧ printed.flatten = List.replicate 300 97 := by
  have hbuf := buffer_write (show (List.replicate 300 (97 : UInt8)).length ≤ 2 ^ 47 by rw [List.length_replicate]; omega)
  have hiff := printing_iff hbuf (IsText.replicate (by decide) 300)
  rw [List.length_replicate] at hiff
  refine hiff.mpr fun k hk => ⟨97, ?_, by decide⟩
  rw [List.getElem?_replicate, if_pos hk]

/-- 255 letters and one of two bytes. -/
def straddling : List UInt8 := List.replicate 255 97 ++ [0xc3, 0xa9]

theorem isText_straddling : IsText straddling := (IsText.replicate (by decide) 255).append (by decide)

/-- The first chunk ends in the middle of a letter, and the kernel panics. -/
theorem straddling_letter_panics : IsText straddling ∧
    Buffer (Memory.write (fun _ => none) 4096 straddling) ⟨4096⟩ straddling ∧
    sysWriteFile true Stdout.write (Memory.write (fun _ => none) 4096 straddling) ⟨4096⟩ 257 [] = none := by
  have hlen : straddling.length = 257 := by
    rw [straddling, List.length_append, List.length_replicate]
    rfl
  have hbuf := buffer_write (show straddling.length ≤ 2 ^ 47 by rw [hlen]; omega)
  refine ⟨isText_straddling, hbuf, ?_⟩
  unfold sysWriteFile
  rw [if_pos rfl, ← hlen, sysWriteLoop_eq hbuf (Nat.zero_le _), Option.map_eq_none_iff, Option.map_eq_none_iff,
    List.drop_zero, Option.eq_none_iff_forall_ne_some]
  intro printed hprinted
  -- no character begins with byte 256, which is the first one of the second chunk
  have hstarts := (isText_chunks (by decide) isText_straddling).mp (foldlM_print.mp hprinted).1
  obtain ⟨byte, hbyte, hfirst⟩ := hstarts 1 (by rw [hlen]; decide)
  have h256 : straddling[256]? = some 0xa9 := by
    rw [straddling, List.getElem?_append_right (by rw [List.length_replicate]; decide), List.length_replicate]
    rfl
  cases h256.symm.trans hbyte
  exact absurd hfirst (by decide)

/-! What `sys_read` leaves in user memory -/

/-- A call of `File::read` with a buffer of `len` bytes has read `bytes` into it, and `taken` is
what the file, or the pipe, has there. -/
inductive ReadBytes : ℕ → List UInt8 → List UInt8 → Prop
  | inode {totalBlocks inodeBitmapBlocks len : ℕ} {s : EasyFs.State} {file file' : OSInode} {x : EasyFs.DiskInode}
      {d' : EasyFs.Disk} {bytes : List UInt8} (htotal : totalBlocks < 2 ^ 32) (hids : 4096 * inodeBitmapBlocks ≤ 2 ^ 32)
      (hreach : EasyFs.Reachable totalBlocks inodeBitmapBlocks s) (hfile : s.Has file.inode x)
      (hreadable : file.readable = true) (hread : OSInode.read len (file, s.disk) = some (bytes, file', d')) :
      ReadBytes len bytes (((file.inode.bytes s.disk).drop file.offset).take len)
  | pipe {s : PipeState} {i n : ℕ} {c : ReadCall} (hrun : PipeRun s) (hcall : s.reads[i]? = some c)
      (hresult : c.result = some n) : ReadBytes c.len c.filled (PipeState.movedBy i s.taken)

theorem ReadBytes.taken {len : ℕ} {bytes taken : List UInt8} (h : ReadBytes len bytes taken) :
    bytes = taken ∧ bytes.length ≤ len := by
  cases h with
  | inode htotal hids hreach hfile _ hread =>
    obtain ⟨v, rfl, rfl, hinv⟩ := hreach.invariant htotal hids
    obtain ⟨id, hx, hinode⟩ := hfile
    rw [hinv.fs] at hx hinode
    rw [read_eq hinv hx hinode, Option.some.injEq, Prod.mk.injEq] at hread
    obtain ⟨rfl, -⟩ := hread
    rw [hinode, EasyFs.bytes_ofId hx]
    exact ⟨rfl, List.length_take_le ..⟩
  | pipe hrun hcall _ =>
    obtain ⟨hmoved, hlen, -⟩ := hrun.delivers.reads _ _ hcall
    exact ⟨hmoved.symm, hlen⟩

/-- A call that returns has written all of the kernel's buffer. -/
theorem sysReadFile_ok {buf : UserPtr .u8} {len : Usize} {bytes : List UInt8} {mem mem' : Memory} {r : ℕ}
    (hle : bytes.length ≤ len.toNat) (h : (sysReadFile buf len bytes mem).2 = .ok (r, mem')) :
    r = bytes.length ∧ buf.ptr.toNat + len.toNat < 2 ^ 64 ∧
      mem' = mem.write buf.ptr (bytes ++ List.replicate (len.toNat - bytes.length) 0) := by
  unfold sysReadFile at h
  split_ifs at h with hlen
  · obtain ⟨_, mem₁, hwrite, h⟩ := ok_of_bind h
    cases h
    unfold UserPtr.writeBuf copyToUser at hwrite
    rw [uassert_bind, uassert_bind] at hwrite
    split_ifs at hwrite with hcheck hok
    · have hptr : buf.ptr.toNat ≤ 2 ^ 48 - 1 := by
        unfold UserPtr.check at hcheck
        exact (uaccessOk_iff.mp (Bool.and_eq_true_iff.mp hcheck).1).2
      refine ⟨rfl, by omega, ?_⟩
      have hbytes : (readBuffer len hlen bytes).bytes = bytes ++ List.replicate (len.toNat - bytes.length) 0 := by
        change (bytes ++ List.replicate len.toNat 0).take len.toNat = _
        rw [List.take_append, List.take_of_length_le hle, List.take_replicate, Nat.min_eq_left (Nat.sub_le _ _)]
      rw [hbytes] at hwrite
      unfold store at hwrite
      split at hwrite
      · cases hwrite
        rfl
      · cases hwrite
  · cases h

/-- A reader that asks for `len` bytes of a pipe has got one, and the write end is closed. -/
theorem exists_read_one (len : ℕ) (hlen : len = 1 ∨ len = 2) : ReadBytes len [7] [7] := by
  have hrun : ([.startWrite [7], .write 0, .startRead len, .dropWriteEnd, .read 0, .read 0].foldlM
      PipeState.step PipeState.makePipe).map (fun s => (s.reads[0]?, PipeState.movedBy 0 s.taken)) =
        some (some ⟨len, [7], some 1⟩, [7]) := by
    rcases hlen with rfl | rfl
    · decide +kernel
    · decide +kernel
  obtain ⟨s, hs, hread⟩ := Option.map_eq_some_iff.mp hrun
  obtain ⟨hcall, htaken⟩ := Prod.mk.inj hread
  have hbytes := ReadBytes.pipe (PipeRun.init.foldlM hs) hcall rfl
  rw [htaken] at hbytes
  exact hbytes

end RCore.Os
