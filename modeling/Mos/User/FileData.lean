import Mos.Lib.Mapping
import Mos.Lib.Returns
import Mos.User.OpenMode
import Mos.User.Ftruncate
import Mos.User.PipeClosed

/-!
# Open files as byte arrays

The contents of an open file are mapped into the client, page by page, at `INDEX2DATA(i)`. So `read` and
`write` are copies within the memory of the client, and `ftruncate` asks the server for the pages behind the
old end or unmaps those behind the new one. `DataClient` is the library with this memory.

`Files` says what this is for: an open file is an array of bytes with a cursor. `files_refined` shows that
every run of the library, on any number of descriptors in any order, is a run of `Files`, if the server does
what it is asked for with pages that are not yet in use, and if the buffers lie elsewhere. What is written to
one file is read from there, and is seen nowhere else.
-/

namespace Mos

open Lib Prog Function

/-! ## The library and its memory -/

/-- The page and the byte of an address. -/
def placeOf (a : Word) : Nat × Nat := (ppn a, a.toNat % 4096)

/-- The state of the library, and the memory of the client: its pages, and the frames that they show. -/
structure DataClient where
  lib : FileClient
  mem : Mapping Nat Nat Nat Byte

/-- A call for descriptor `i`: what it returns, and what it copies. -/
def FileOp.call (i : Nat) : FileOp → FileM (Word × Copies)
  | .read buf n => fdRead i buf n
  | .write buf n => fdWrite i buf n
  | .seek offset => do
    fdSeek i offset
    return (0, [])
  | .truncate size => do
    ftruncate i size
    return (0, [])

/-- The page table, after the pages that are there have changed from `before` to `after`. A page that comes in
shows the frame that the server has sent for it. -/
def remap (sent : Nat → Nat) (before after : Nat → Bool) (frame : Nat → Option Nat) : Nat → Option Nat :=
  fun v => if before v = after v then frame v else if after v = true then some (sent v) else none

/-- The memory with this page table. -/
def DataClient.remapped (s : DataClient) (sent : Nat → Nat) (lib : FileClient) : Mapping Nat Nat Nat Byte :=
  { s.mem with frame := remap sent s.lib.pages lib.pages s.mem.frame }

/-- The bytes are copied when the library has changed the mappings. -/
def DataClient.step (s : DataClient) (i : Nat) (sent : Nat → Nat) (op : FileOp) :
    Option (Except Err Word × DataClient) :=
  match op.call i s.lib with
  | .ret r lib =>
    some (.ok r.1, ⟨lib, (s.remapped sent lib).copy (r.2.map fun c => (placeOf c.1, placeOf c.2))⟩)
  | .err e lib => some (.error e, ⟨lib, s.remapped sent lib⟩)
  | .halt _ => none

/-! ## What it is for -/

/-- An open file: its bytes, the cursor, and what it may be used for. -/
structure OpenFile where
  bytes : List Byte
  pos : Nat
  readable : Bool
  writable : Bool

/-- The open files of a client, and the rest of its memory. -/
structure Files where
  file : Nat → Option OpenFile
  user : Word → Option Byte

/-- The bytes that a read of `n` bytes gets. -/
def OpenFile.next (f : OpenFile) (n : Nat) : List Byte := (f.bytes.drop f.pos).take n

/-- The memory with `bs` from `buf` on. -/
def received (u : Word → Option Byte) (buf : Word) (bs : List Byte) : Word → Option Byte := fun a =>
  if (a - buf).toNat < bs.length then bs[(a - buf).toNat]? else u a

/-- The bytes `bs` lie at `buf`. -/
def HeldAt (u : Word → Option Byte) (buf : Word) (bs : List Byte) : Prop :=
  ∀ k < bs.length, u (buf + BitVec.ofNat 32 k) = bs[k]?

/-- A call for file `i`. Where a file grows, its new bytes are what the server has there. -/
inductive Files.Step (F : Files) (i : Nat) : FileOp → Except Err Word → Files → Prop
  | read {f : OpenFile} {buf n : Word} (hf : F.file i = some f) (hr : f.readable = true) :
    F.Step i (.read buf n) (.ok (BitVec.ofNat 32 (f.next n.toNat).length))
      { file := update F.file i (some { f with pos := f.pos + (f.next n.toNat).length })
        user := received F.user buf (f.next n.toNat) }
  | readRefused {f : OpenFile} {buf n : Word} (hf : F.file i = some f) (hr : f.readable = false) :
    F.Step i (.read buf n) (.error .inval) F
  | write {f : OpenFile} {buf n : Word} {data bytes : List Byte} (hf : F.file i = some f)
    (hw : f.writable = true) (hn : data.length = n.toNat) (hdata : HeldAt F.user buf data)
    (hfit : f.pos + data.length ≤ maxfilesize)
    (hbytes : Refitted f.bytes (max f.bytes.length (f.pos + data.length)) bytes) :
    F.Step i (.write buf n) (.ok n)
      { F with
        file := update F.file i
          (some { f with bytes := overwrite bytes f.pos data, pos := f.pos + data.length }) }
  | writeFull {f : OpenFile} {buf n : Word} (hf : F.file i = some f) (hw : f.writable = true)
    (hfit : maxfilesize < f.pos + n.toNat) : F.Step i (.write buf n) (.error .noDisk) F
  | writeRefused {f : OpenFile} {buf n : Word} (hf : F.file i = some f) (hw : f.writable = false) :
    F.Step i (.write buf n) (.error .inval) F
  | seek {f : OpenFile} {offset : Word} (hf : F.file i = some f) :
    F.Step i (.seek offset) (.ok 0) { F with file := update F.file i (some { f with pos := offset.toNat }) }
  | truncate {f : OpenFile} {size : Word} {bytes : List Byte} (hf : F.file i = some f)
    (hfit : size.toNat ≤ maxfilesize) (hbytes : Refitted f.bytes size.toNat bytes) :
    F.Step i (.truncate size) (.ok 0) { F with file := update F.file i (some { f with bytes := bytes }) }
  | truncateFull {f : OpenFile} {size : Word} (hf : F.file i = some f) (hfit : maxfilesize < size.toNat) :
    F.Step i (.truncate size) (.error .noDisk) F

/-! ## What the library shows -/

variable {s t : DataClient} {l l' : FileClient} {p q : Page} {i j k : Nat} {sent : Nat → Nat} {op : FileOp}
  {size oldsize fileid offset buf n r a : Word}

/-- The addresses of the descriptors and of their windows. -/
def inFileArea (a : Word) : Prop := 0x5fc00000 ≤ a.toNat ∧ a.toNat < 0x68000000

instance (a : Word) : Decidable (inFileArea a) :=
  inferInstanceAs (Decidable (0x5fc00000 ≤ a.toNat ∧ a.toNat < 0x68000000))

/-- The place of byte `k` of the file of descriptor `i`. -/
def dataPlace (i k : Nat) : Nat × Nat := placeOf (index2data i + BitVec.ofNat 32 k)

/-- What descriptor `i` with the page `p` shows. -/
def DataClient.openFile (s : DataClient) (i : Nat) (p : Page) : OpenFile where
  bytes := (List.range (fileSize p).toNat).map fun k => (s.mem.load (dataPlace i k)).getD 0
  pos := (p 1).toNat
  readable := decide (p 2 &&& oAccmode ≠ oWronly)
  writable := decide (p 2 &&& oAccmode ≠ oRdonly)

/-- What the client sees. -/
def DataClient.files (s : DataClient) : Files where
  file i := if i < maxfd then (s.lib.fd i).bind fun p =>
      if p 0 = devfile ∧ (p 3 = normalDisk ∨ p 3 = fat32Disk) then some (s.openFile i p) else none
    else none
  user a := if inFileArea a then none else s.mem.load (placeOf a)

/-- The state between two calls: no frame is seen twice, the servers do what they are asked for, and of each
file exactly the pages that it has are mapped. -/
structure DataClient.Ok (s : DataClient) : Prop where
  apart : s.mem.Apart
  granted : ∀ m, s.lib.replies m = none
  small : ∀ i p, s.lib.OpenFd i p → (fileSize p).toNat ≤ maxfilesize
  window : ∀ i p, s.lib.OpenFd i p → s.lib.WindowIs i (fileSize p)
  shown : ∀ i p, s.lib.OpenFd i p → ∀ j < 1024,
    (s.mem.frame (dataPage i j)).isSome = s.lib.pages (dataPage i j)

/-- A buffer of `n` bytes, outside of the descriptors and of their windows. -/
structure DataClient.Buffer (s : DataClient) (buf n : Word) : Prop where
  lt : n.toNat < 2 ^ 31
  user : buf.toNat + n.toNat ≤ 2 ^ 31
  outside : ∀ k < n.toNat, ¬inFileArea (buf + BitVec.ofNat 32 k)
  mapped : ∀ k < n.toNat, (s.mem.frame (placeOf (buf + BitVec.ofNat 32 k)).1).isSome = true

/-- What is asked of a call for the descriptor with the page `p`. -/
def FileOp.Fits (s : DataClient) (p : Page) : FileOp → Prop
  | .read buf n => s.Buffer buf n
  | .write buf n => s.Buffer buf n ∧ (p 1).toNat + n.toNat < 2 ^ 32
  | _ => True

/-- The server sends pages that the client does not have. -/
structure DataClient.Sends (s : DataClient) (i : Nat) (sent : Nat → Nat) : Prop where
  fresh : ∀ j < 1024, ∀ v, s.mem.frame v ≠ some (sent (dataPage i j))
  inj : ∀ j < 1024, ∀ j' < 1024, sent (dataPage i j) = sent (dataPage i j') → j = j'

/-! ## Places -/

theorem placeOf_injective : Injective placeOf := by
  intro a b h
  have h₁ : ppn a = ppn b := congrArg Prod.fst h
  have h₂ : a.toNat % 4096 = b.toNat % 4096 := congrArg Prod.snd h
  rw [ppn_eq, ppn_eq] at h₁
  apply BitVec.eq_of_toNat_eq
  omega

theorem toNat_dataByte (hi : i < maxfd) (hk : k < maxfilesize) :
    (index2data i + BitVec.ofNat 32 k).toNat = 0x60000000 + i * 4194304 + k := by
  have hwin := toNat_index2data hi
  rw [maxfilesize_eq] at hk
  unfold maxfd at hi
  rw [toNat_add_ofNat (by omega), hwin]

theorem dataPlace_eq (hi : i < maxfd) (hk : k < maxfilesize) :
    dataPlace i k = (dataPage i (k / 4096), k % 4096) := by
  have hk' := hk
  rw [maxfilesize_eq] at hk'
  have hnat := toNat_dataByte hi hk
  refine Prod.ext ?_ ?_
  · show ppn _ = _
    rw [ppn_eq, hnat, dataPage_eq hi (by omega)]
    omega
  · show (index2data i + BitVec.ofNat 32 k).toNat % 4096 = k % 4096
    rw [hnat]
    omega

theorem dataPlace_inj {i' k' : Nat} (hi : i < maxfd) (hi' : i' < maxfd) (hk : k < maxfilesize)
    (hk' : k' < maxfilesize) (h : dataPlace i k = dataPlace i' k') : i = i' ∧ k = k' := by
  have hnat := congrArg BitVec.toNat (placeOf_injective h)
  rw [toNat_dataByte hi hk, toNat_dataByte hi' hk'] at hnat
  rw [maxfilesize_eq] at hk hk'
  omega

/-- The window of a descriptor is in the area of the files. -/
theorem inFileArea_data (hi : i < maxfd) (hk : k < maxfilesize) :
    inFileArea (index2data i + BitVec.ofNat 32 k) := by
  have hnat := toNat_dataByte hi hk
  rw [maxfilesize_eq] at hk
  unfold maxfd at hi
  unfold inFileArea
  omega

/-- Other addresses are on other pages. -/
theorem page_outside (ha : ¬inFileArea a) (hi : i < maxfd) (hj : j < 1024) : (placeOf a).1 ≠ dataPage i j := by
  unfold inFileArea at ha
  unfold maxfd at hi
  show ppn a ≠ _
  rw [ppn_eq, dataPage_eq hi hj]
  omega

theorem roundPages_le (h : size.toNat ≤ maxfilesize) : roundPages size ≤ 1024 := by
  rw [maxfilesize_eq] at h
  unfold roundPages roundUp by2blk
  omega

/-- The pages of a file are those on which it has bytes. -/
theorem page_lt_roundPages (h : size.toNat ≤ maxfilesize) (hk : k < size.toNat) :
    k / 4096 < roundPages size := by
  rw [maxfilesize_eq] at h
  unfold roundPages roundUp by2blk
  omega

/-! ## What a call does to the library -/

/-- A call for descriptor `i` has put `q` into its page, and the pages of its window are those of the file. -/
structure Moved (i : Nat) (q : Page) (l l' : FileClient) : Prop where
  fd : l'.fd = update l.fd i (some q)
  granted : ∀ m, l'.replies m = none
  pages : ∀ v, (∀ j < 1024, v ≠ dataPage i j) → l'.pages v = l.pages v
  window : l'.WindowIs i (fileSize q)

theorem update_same {α β : Type} [DecidableEq α] {f : α → β} {a : α} {b : β} (h : f a = b) :
    update f a b = f := by
  rw [← h]
  exact update_eq_self a f

theorem fileSize_update_one (p : Page) (x : Word) : fileSize (update p 1 x) = fileSize p := by
  have h3 : (3 : Nat) ≠ 1 := by decide
  have hat : sizeAt (update p 1 x) = sizeAt p := by
    unfold sizeAt
    rw [update_of_ne h3]
  have hne : sizeAt p ≠ 1 := by rcases sizeAt_cases p with h | h <;> omega
  unfold fileSize
  rw [hat, update_of_ne hne]

/-- `if (r > 0) fd->fd_offset += r` in all cases. -/
theorem advance_ret (h : l.fd i = some p) (hr : r.toNat < 2 ^ 31) : advance i r l =
    .ret () { l with fd := update l.fd i (some (update p 1 (p 1 + r))) } := by
  have hpage : l.page i = p := by
    unfold FileClient.page
    rw [h]
    rfl
  unfold advance
  rw [get_bind]
  by_cases hpos : 0 < r.toInt
  · rw [when_pos hpos, hpage]
    have hset : l.setFd i 1 (p 1 + r) = { l with fd := update l.fd i (some (update p 1 (p 1 + r))) } := by
      unfold FileClient.setFd
      rw [h]
      rfl
    rw [hset]
    rfl
  · have hzero : r = 0 := by
      rw [BitVec.toInt_eq_toNat_of_lt (by omega)] at hpos
      apply BitVec.eq_of_toNat_eq
      show r.toNat = 0
      omega
    have hadd : p 1 + 0 = p 1 := BitVec.add_zero (p 1)
    rw [when_neg hpos, hzero, hadd, update_same rfl, update_same h]
    rfl

theorem Moved.advance (h : Moved i q l l') (x : Word) :
    Moved i (update q 1 x) l { l' with fd := update l'.fd i (some (update q 1 x)) } where
  fd := by
    show update l'.fd i _ = _
    rw [h.fd, update_idem]
  granted := h.granted
  pages := h.pages
  window := by
    rw [fileSize_update_one]
    exact h.window

theorem dataVa_legal (hi : i < maxfd) (hj : j < 1024) : isIllegalVa (dataVa i j) = false := by
  have hnat : (dataVa i j).toNat = 0x60000000 + i * 4194304 + j * 4096 := by
    unfold maxfd at hi
    rw [dataVa, BitVec.toNat_add, BitVec.toNat_mul, BitVec.toNat_ofNat, toNat_index2data (by exact hi),
      toNat_by2pg]
    omega
  have hutemp : utemp.toNat ≤ 0x60000000 := by decide
  have hutop := toNat_utop
  unfold maxfd at hi
  have h₁ : ¬dataVa i j < utemp := fun hc => by
    have hc' : (dataVa i j).toNat < utemp.toNat := hc
    omega
  have h₂ : ¬utop ≤ dataVa i j := fun hc => by
    have hc' : utop.toNat ≤ (dataVa i j).toNat := hc
    omega
  unfold isIllegalVa
  rw [decide_eq_false h₁, decide_eq_false h₂]
  rfl

/-! ## `ftruncate` -/

/-- Between two rounds of a loop of `ftruncate`: the pages from `j` up to `d` are in the state `v`. -/
structure Turned (i j d : Nat) (v : Bool) (l l' : FileClient) : Prop where
  fd : l'.fd = l.fd
  granted : ∀ m, l'.replies m = none
  done : ∀ e, j ≤ e → e < d → l'.pages (dataPage i e) = v
  rest : ∀ n, (∀ e, j ≤ e → e < d → n ≠ dataPage i e) → l'.pages n = l.pages n

/-- One page more. -/
theorem Turned.next {d : Nat} {v : Bool} {l₁ l₂ : FileClient} (h : Turned i j d v l l₁) (hjd : j ≤ d)
    (hfd : l₂.fd = l₁.fd) (hgranted : ∀ m, l₂.replies m = none)
    (hpages : l₂.pages = update l₁.pages (dataPage i d) v) : Turned i j (d + 1) v l l₂ where
  fd := hfd.trans h.fd
  granted := hgranted
  done e he hed := by
    rw [hpages]
    by_cases heq : dataPage i e = dataPage i d
    · rw [heq, update_self]
    · rw [update_of_ne heq]
      refine h.done e he ?_
      by_contra hc
      exact heq (by rw [show e = d by omega])
  rest n hn := by
    rw [hpages, update_of_ne (hn d hjd (by omega))]
    exact h.rest n fun e he hed => hn e he (by omega)

theorem mapLoop_turns (n : Nat) (hg : ∀ m, l.replies m = none) :
    Returns (Prog.loop (mapBody i fileid oldsize) j n) l fun _ => Turned i j (j + n) true l := by
  refine Returns.loop (I := fun d => Turned i j d true l) (fun d l₁ hjd _ h => ?_)
    ⟨rfl, hg, fun e he hed => by omega, fun _ _ => rfl⟩
  exact .of_eq (mapBody_granted (h.granted 0)) (h.next hjd rfl (fun m => h.granted (m + 1)) rfl)

theorem unmapLoop_turns (hi : i < maxfd) {n : Nat} (hn : j + n ≤ 1024) (hg : ∀ m, l.replies m = none) :
    Returns (Prog.loop (unmapBody i) j n) l fun _ => Turned i j (j + n) false l := by
  refine Returns.loop (I := fun d => Turned i j d false l) (fun d l₁ hjd hd h => ?_)
    ⟨rfl, hg, fun e he hed => by omega, fun _ _ => rfl⟩
  have hbody : unmapBody i d l₁ =
      .ret () { l₁ with pages := update l₁.pages (dataPage i d) false } := by
    -- the windows are user memory, so the kernel unmaps what it is asked to
    have hlegal : ¬isIllegalVa (dataVa i d) = true := by
      rw [dataVa_legal hi (by omega)]
      exact Bool.false_ne_true
    have hunmap : unmapPage (dataVa i d) l₁ =
        .ret () { l₁ with pages := update l₁.pages (dataPage i d) false } := by
      rw [unmapPage, if_neg hlegal]
      rfl
    rw [unmapBody, bind_ret (attempt_ret hunmap)]
    rfl
  exact .of_eq hbody (h.next hjd rfl h.granted rfl)

/-- **`ftruncate`** leaves exactly the pages of the new size mapped. -/
theorem ftruncate_moves (h : l.OpenFd i p) (hg : ∀ m, l.replies m = none)
    (hold : (fileSize p).toNat ≤ maxfilesize) (hsize : size.toNat ≤ maxfilesize)
    (hw : l.WindowIs i (fileSize p)) :
    Returns (ftruncate i size) l fun _ => Moved i (Page.setSize p size) l := by
  have hR := roundPages_le hold
  have hR' := roundPages_le hsize
  have hset : (l.setFd i (sizeAt p) size).fd = update l.fd i (some (Page.setSize p size)) := by
    unfold FileClient.setFd
    rw [h.fd]
    rfl
  have hreply : (l.setFd i (sizeAt p) size).replies 0 = none := hg 0
  unfold Returns
  rw [ftruncate_eq h hsize, bind_ret (fsipcSetSize_granted hreply)]
  refine (mapLoop_turns _ fun m => hg (m + 1)).call ?_
  intro _ l₁ h₁
  refine (unmapLoop_turns h.lt (by omega) h₁.granted).mono ?_
  intro _ l₂ h₂
  refine ⟨(h₂.fd.trans h₁.fd).trans hset, h₂.granted, fun v hv => ?_, fun e he => ?_⟩
  · rw [h₂.rest v fun e _ he => hv e (by omega), h₁.rest v fun e _ he => hv e (by omega)]
    rfl
  · rw [fileSize_setSize]
    have hother : ∀ {a b : Nat}, b ≤ 1024 → ¬(a ≤ e ∧ e < b) → ∀ d, a ≤ d → d < b →
        dataPage i e ≠ dataPage i d := fun hb hne d hd hdb heq =>
      hne (by obtain ⟨-, rfl⟩ := dataPage_inj h.lt h.lt he (by omega) heq; exact ⟨hd, hdb⟩)
    have hwindow := hw e he
    -- a page was unmapped by the second loop, or mapped by the first one, or neither loop went there
    by_cases hshrink : roundPages size ≤ e ∧ e < roundPages size + (roundPages (fileSize p) - roundPages size)
    · rw [h₂.done e hshrink.1 hshrink.2]
      exact iff_of_false Bool.false_ne_true (by omega)
    · rw [h₂.rest _ (hother (by omega) hshrink)]
      by_cases hgrow : roundPages (fileSize p) ≤ e ∧
          e < roundPages (fileSize p) + (roundPages size - roundPages (fileSize p))
      · rw [h₁.done e hgrow.1 hgrow.2]
        exact iff_of_true rfl (by omega)
      · rw [h₁.rest _ (hother (by omega) hgrow)]
        exact hwindow.trans (by omega)

/-! ## What a call does to the memory -/

/-- A page that is there after a call was there before, or the server has sent it. -/
theorem remap_eq_some {before after : Nat → Bool} {frame : Nat → Option Nat} {v f : Nat}
    (h : remap sent before after frame v = some f) :
    frame v = some f ∨ before v ≠ after v ∧ f = sent v := by
  unfold remap at h
  split at h
  · exact .inl h
  · next hne =>
    split at h
    · exact .inr ⟨hne, (Option.some.inj h).symm⟩
    · cases h

theorem remap_same (sent : Nat → Nat) (pages : Nat → Bool) (frame : Nat → Option Nat) :
    remap sent pages pages frame = frame := funext fun _ => if_pos rfl

theorem DataClient.remapped_self (s : DataClient) (sent : Nat → Nat) : s.remapped sent s.lib = s.mem := by
  unfold DataClient.remapped
  rw [remap_same]

/-- The descriptor is still open for a file of the same disk. -/
theorem Moved.openFd (h : Moved i q l l') (hp : l.OpenFd i p) (hq : q 0 = p 0 ∧ q 3 = p 3) : l'.OpenFd i q where
  lt := hp.lt
  fd := by rw [h.fd, update_self]
  device := hq.1.trans hp.device
  disk := by
    rw [hq.2]
    exact hp.disk

theorem Moved.openFd_other (h : Moved i q l l') (hji : j ≠ i) : l'.OpenFd j p ↔ l.OpenFd j p := by
  have hfd : l'.fd j = l.fd j := by rw [h.fd, update_of_ne hji]
  constructor
  · exact fun ho => ⟨ho.lt, hfd.symm.trans ho.fd, ho.device, ho.disk⟩
  · exact fun ho => ⟨ho.lt, hfd.trans ho.fd, ho.device, ho.disk⟩

section Remapped

variable (h : s.Ok) (hp : s.lib.OpenFd i p) (hm : Moved i q s.lib l') (hs : s.Sends i sent)

include hm in
theorem Moved.frame_other {v : Nat} (hv : ∀ j < 1024, v ≠ dataPage i j) :
    (s.remapped sent l').frame v = s.mem.frame v := if_pos (hm.pages v hv).symm

include h hm hs in
theorem Moved.apart : (s.remapped sent l').Apart := by
  -- a page that comes in is one of the window
  have hnew : ∀ {v : Nat}, s.lib.pages v ≠ l'.pages v → ∃ j < 1024, v = dataPage i j := fun {v} hne => by
    by_contra hc
    exact hne (hm.pages v fun j hj hv => hc ⟨j, hj, hv⟩).symm
  intro v w f hv hw
  rcases remap_eq_some hv with hv | ⟨hvn, rfl⟩
  · rcases remap_eq_some hw with hw | ⟨hwn, rfl⟩
    · exact h.apart v w f hv hw
    · obtain ⟨j, hj, rfl⟩ := hnew hwn
      exact absurd hv (hs.fresh j hj v)
  · obtain ⟨j, hj, rfl⟩ := hnew hvn
    rcases remap_eq_some hw with hw | ⟨hwn, heq⟩
    · exact absurd hw (hs.fresh j hj w)
    · obtain ⟨j', hj', rfl⟩ := hnew hwn
      rw [hs.inj j hj j' hj' heq]

include h hp in
/-- Exactly the pages that the library knows are there. -/
theorem DataClient.remapped_shown (hj : j < 1024) :
    ((s.remapped sent l').frame (dataPage i j)).isSome = l'.pages (dataPage i j) := by
  show (remap sent s.lib.pages l'.pages s.mem.frame (dataPage i j)).isSome = _
  unfold remap
  split
  · next heq => exact (h.shown i p hp j hj).trans heq
  · split
    · next hl => rw [hl]; rfl
    · next hl => exact (Bool.eq_false_of_not_eq_true hl).symm

include h hp hm hs in
/-- The state is in order after the call. -/
theorem Moved.ok (hq : q 0 = p 0 ∧ q 3 = p 3) (hsize : (fileSize q).toNat ≤ maxfilesize)
    (cs : List ((Nat × Nat) × (Nat × Nat))) :
    DataClient.Ok ⟨l', (s.remapped sent l').copy cs⟩ := by
  have hopen := hm.openFd hp hq
  have hsame : ∀ {j p'}, l'.OpenFd j p' → j = i → p' = q := fun ho hji => by
    subst hji
    exact Option.some.inj (ho.fd.symm.trans hopen.fd)
  -- the window of another descriptor has none of these pages
  have hwindow : ∀ {j p' e}, s.lib.OpenFd j p' → j ≠ i → e < 1024 → ∀ d < 1024, dataPage j e ≠ dataPage i d :=
    fun ho hji he d hd heq => hji (dataPage_inj ho.lt hp.lt he hd heq).1
  refine ⟨(hm.apart h hs).copy cs, hm.granted, fun j p' ho => ?_, fun j p' ho e he => ?_, fun j p' ho e he => ?_⟩
  · by_cases hji : j = i
    · rw [hsame ho hji]
      exact hsize
    · exact h.small j p' ((hm.openFd_other hji).mp ho)
  · by_cases hji : j = i
    · rw [hsame ho hji, hji]
      exact hm.window e he
    · have ho' := (hm.openFd_other hji).mp ho
      rw [hm.pages _ (hwindow ho' hji he)]
      exact h.window j p' ho' e he
  · show (((s.remapped sent l').copy cs).frame _).isSome = l'.pages _
    rw [Mapping.frame_copy]
    by_cases hji : j = i
    · rw [hji]
      exact DataClient.remapped_shown h hp he
    · have ho' := (hm.openFd_other hji).mp ho
      rw [hm.frame_other (hwindow ho' hji he), hm.pages _ (hwindow ho' hji he)]
      exact h.shown j p' ho' e he

include hp hm in
/-- Another file is not touched by the requests. -/
theorem Moved.load_other (hj : j < maxfd) (hji : j ≠ i) (hk : k < maxfilesize) :
    (s.remapped sent l').load (dataPlace j k) = s.mem.load (dataPlace j k) := by
  refine Mapping.load_congr rfl (hm.frame_other fun d hd heq => ?_)
  rw [dataPlace_eq hj hk] at heq
  rw [maxfilesize_eq] at hk
  exact hji (dataPage_inj hj hp.lt (by omega) hd heq).1

include hp hm in
/-- The rest of the memory is not touched by the requests. -/
theorem Moved.load_user (ha : ¬inFileArea a) :
    (s.remapped sent l').load (placeOf a) = s.mem.load (placeOf a) :=
  Mapping.load_congr rfl (hm.frame_other fun _ hd => page_outside ha hp.lt hd)

include h hp hm in
/-- The file keeps its bytes as far as it has them before and after. -/
theorem Moved.load_kept (hsize : (fileSize q).toNat ≤ maxfilesize) (hk : k < (fileSize p).toNat)
    (hk' : k < (fileSize q).toNat) :
    (s.remapped sent l').load (dataPlace i k) = s.mem.load (dataPlace i k) := by
  have hold := h.small i p hp
  rw [dataPlace_eq hp.lt (by omega)]
  have hpage : k / 4096 < 1024 := by
    rw [maxfilesize_eq] at hsize
    omega
  have hbefore := (h.window i p hp _ hpage).mpr (page_lt_roundPages hold hk)
  have hafter := (hm.window _ hpage).mpr (page_lt_roundPages hsize hk')
  exact Mapping.load_congr rfl (if_pos (hbefore.trans hafter.symm))

include h hp hm in
/-- All bytes of the file are there. -/
theorem Moved.mapped (hsize : (fileSize q).toNat ≤ maxfilesize) (hk : k < (fileSize q).toNat) :
    ((s.remapped sent l').frame (dataPlace i k).1).isSome = true := by
  rw [dataPlace_eq hp.lt (by omega)]
  have hpage : k / 4096 < 1024 := by
    rw [maxfilesize_eq] at hsize
    omega
  rw [DataClient.remapped_shown h hp hpage]
  exact (hm.window _ hpage).mpr (page_lt_roundPages hsize hk)

end Remapped

/-! ## What the client sees -/

theorem DataClient.file_open (s : DataClient) (hp : s.lib.OpenFd i p) :
    s.files.file i = some (s.openFile i p) := by
  show (if i < maxfd then _ else _) = _
  rw [if_pos hp.lt, hp.fd, Option.bind_some, if_pos ⟨hp.device, hp.disk⟩]

theorem DataClient.user_outside (s : DataClient) (ha : ¬inFileArea a) :
    s.files.user a = s.mem.load (placeOf a) := if_neg ha

theorem DataClient.user_inside (s : DataClient) (ha : inFileArea a) : s.files.user a = none := if_pos ha

/-- A call that has left the bytes of the other files alone. -/
theorem DataClient.files_moved {mem : Mapping Nat Nat Nat Byte} {u : Word → Option Byte}
    (h : s.Ok) (hp : s.lib.OpenFd i p) (hm : Moved i q s.lib l') (hq : q 0 = p 0 ∧ q 3 = p 3)
    (hother : ∀ j < maxfd, j ≠ i → ∀ k < maxfilesize, mem.load (dataPlace j k) = s.mem.load (dataPlace j k))
    (hin : ∀ a, inFileArea a → u a = none) (hout : ∀ a, ¬inFileArea a → mem.load (placeOf a) = u a) :
    DataClient.files ⟨l', mem⟩ =
      { file := update s.files.file i (some (DataClient.openFile ⟨l', mem⟩ i q)), user := u } := by
  have hfile : (DataClient.files ⟨l', mem⟩).file =
      update s.files.file i (some (DataClient.openFile ⟨l', mem⟩ i q)) := by
    funext j
    by_cases hji : j = i
    · subst hji
      rw [update_self]
      exact DataClient.file_open ⟨l', mem⟩ (hm.openFd hp hq)
    · rw [update_of_ne hji]
      have hfd : l'.fd j = s.lib.fd j := by rw [hm.fd, update_of_ne hji]
      show (if j < maxfd then (l'.fd j).bind _ else none) = if j < maxfd then (s.lib.fd j).bind _ else none
      rw [hfd]
      by_cases hj : j < maxfd
      · rw [if_pos hj, if_pos hj]
        cases hpj : s.lib.fd j with
        | none => rfl
        | some p' =>
          rw [Option.bind_some, Option.bind_some]
          -- what is not a file of a disk is no open file before and after
          by_cases hdev : p' 0 = devfile ∧ (p' 3 = normalDisk ∨ p' 3 = fat32Disk)
          · have hsize := h.small j p' ⟨hj, hpj, hdev.1, hdev.2⟩
            rw [if_pos hdev, if_pos hdev]
            unfold DataClient.openFile
            congr 2
            refine List.map_congr_left fun k hk => ?_
            rw [hother j hj hji k (lt_of_lt_of_le (List.mem_range.mp hk) hsize)]
          · rw [if_neg hdev, if_neg hdev]
      · rw [if_neg hj, if_neg hj]
  have huser : (DataClient.files ⟨l', mem⟩).user = u := by
    funext a
    by_cases ha : inFileArea a
    · rw [DataClient.user_inside _ ha, hin a ha]
    · rw [DataClient.user_outside _ ha, ← hout a ha]
  rw [← hfile, ← huser]

/-- `memcpy` between addresses of the user copies everything. -/
theorem userMemcpy_all {dst src : Word} (hdst : dst.toNat + n.toNat ≤ 2 ^ 31)
    (hsrc : src.toNat + n.toNat ≤ 2 ^ 31) : userMemcpy dst src n = span dst src n.toNat := by
  obtain ⟨k, heq, ⟨hk, -⟩, -, hall⟩ := userMemcpy_span dst src n
  have hkn : k = n.toNat := by
    have := hall (by omega)
    omega
  rw [heq, hkn]

/-- The places that a copy goes through. -/
theorem map_span (dst src : Word) (N : Nat) :
    (span dst src N).map (fun c => (placeOf c.1, placeOf c.2)) =
      (List.range N).map fun k => (placeOf (dst + BitVec.ofNat 32 k), placeOf (src + BitVec.ofNat 32 k)) := by
  unfold span
  rw [List.map_map]
  rfl

/-! ## Copies between files and buffers -/

theorem DataClient.length_openFile (s : DataClient) (i : Nat) (p : Page) :
    (s.openFile i p).bytes.length = (fileSize p).toNat := by
  unfold DataClient.openFile
  rw [List.length_map, List.length_range]

theorem DataClient.Ok.moved (h : s.Ok) (hp : s.lib.OpenFd i p) : Moved i p s.lib s.lib :=
  ⟨(update_same hp.fd).symm, h.granted, fun _ _ => rfl, h.window i p hp⟩

/-- The bytes of an open file are there. -/
theorem DataClient.Ok.mapped (h : s.Ok) (hp : s.lib.OpenFd i p) (hk : k < (fileSize p).toNat) :
    (s.mem.frame (dataPlace i k).1).isSome = true := by
  have hm : ((s.remapped id s.lib).frame (dataPlace i k).1).isSome = true :=
    (h.moved hp).mapped h hp (h.small i p hp) hk
  rwa [s.remapped_self] at hm

/-- A call that returns an error before it has done anything. -/
theorem DataClient.step_refused {e : Err} (hcall : op.call i s.lib = .err e s.lib) :
    s.step i sent op = some (.error e, s) := by
  unfold DataClient.step
  rw [hcall]
  show some (Except.error e, (⟨s.lib, s.remapped sent s.lib⟩ : DataClient)) = _
  rw [s.remapped_self]

/-- The bytes of a buffer, at different places. -/
theorem buffer_inj (hb : s.Buffer buf n) : ∀ j < n.toNat, ∀ k < n.toNat,
    placeOf (buf + BitVec.ofNat 32 j) = placeOf (buf + BitVec.ofNat 32 k) → j = k := by
  intro j hj k hk heq
  have hlt := hb.lt
  exact add_ofNat_inj (placeOf_injective heq) (by omega) (by omega)

/-- No byte of a buffer is one of a file. -/
theorem buffer_ne_data (hb : s.Buffer buf n) (hi : i < maxfd) (hk : k < maxfilesize) (hj : j < n.toNat) :
    dataPlace i k ≠ placeOf (buf + BitVec.ofNat 32 j) := fun heq =>
  hb.outside j hj (placeOf_injective heq ▸ inFileArea_data hi hk)

/-- The places of the bytes from `offset` on. -/
theorem placeOf_data (i k : Nat) (offset : Word) :
    placeOf (index2data i + offset + BitVec.ofNat 32 k) = dataPlace i (offset.toNat + k) := by
  rw [add_offset]
  rfl

theorem placeOf_ne_data (ha : ¬inFileArea a) (hi : i < maxfd) (hk : k < maxfilesize) :
    placeOf a ≠ dataPlace i k := fun heq => ha (placeOf_injective heq ▸ inFileArea_data hi hk)

/-- A copy of `N` bytes of a file, from position `pos` on, to a buffer. -/
theorem copy_to_buffer (h : s.Ok) (hp : s.lib.OpenFd i p) (hb : s.Buffer buf n) {N : Nat} (pos : Nat)
    (hN : N ≤ n.toNat) (hfit : ∀ k < N, pos + k < (fileSize p).toNat) :
    (∀ k < N, (s.mem.copy ((List.range N).map fun k =>
      (placeOf (buf + BitVec.ofNat 32 k), dataPlace i (pos + k)))).load (placeOf (buf + BitVec.ofNat 32 k)) =
        s.mem.load (dataPlace i (pos + k))) ∧
    ∀ c, (∀ k < N, c ≠ placeOf (buf + BitVec.ofNat 32 k)) → (s.mem.copy ((List.range N).map fun k =>
      (placeOf (buf + BitVec.ofNat 32 k), dataPlace i (pos + k)))).load c = s.mem.load c := by
  have hsize := h.small i p hp
  refine h.apart.load_copy (fun k hk => hb.mapped k (by omega)) (fun k hk => h.mapped hp (hfit k hk))
    (fun j hj k hk => buffer_inj hb j (by omega) k (by omega)) fun j hj k hk => ?_
  have hpos := hfit j hj
  exact buffer_ne_data hb hp.lt (by omega) (by omega)

/-- A copy of a buffer to a file, from position `pos` on, after the requests for its room. -/
theorem copy_to_file (h : s.Ok) (hp : s.lib.OpenFd i p) (hm : Moved i q s.lib l') (hs : s.Sends i sent)
    (hb : s.Buffer buf n) (pos : Nat) (hqmax : (fileSize q).toNat ≤ maxfilesize)
    (hfit : pos + n.toNat ≤ (fileSize q).toNat) :
    (∀ k < n.toNat, ((s.remapped sent l').copy ((List.range n.toNat).map fun k =>
      (dataPlace i (pos + k), placeOf (buf + BitVec.ofNat 32 k)))).load (dataPlace i (pos + k)) =
        s.mem.load (placeOf (buf + BitVec.ofNat 32 k))) ∧
    ∀ c, (∀ k < n.toNat, c ≠ dataPlace i (pos + k)) → ((s.remapped sent l').copy ((List.range n.toNat).map
      fun k => (dataPlace i (pos + k), placeOf (buf + BitVec.ofNat 32 k)))).load c =
        (s.remapped sent l').load c := by
  obtain ⟨hgot, hrest⟩ := (hm.apart h hs).load_copy (n := n.toNat)
    (fun k hk => hm.mapped h hp hqmax (k := pos + k) (by omega))
    (fun k hk => by
      rw [hm.frame_other fun _ hd => page_outside (hb.outside k hk) hp.lt hd]
      exact hb.mapped k hk)
    (fun j hj k hk heq => by
      have := (dataPlace_inj hp.lt hp.lt (by omega) (by omega) heq).2
      omega)
    (fun j hj k hk => placeOf_ne_data (hb.outside j hj) hp.lt (k := pos + k) (by omega))
  exact ⟨fun k hk => (hgot k hk).trans (hm.load_user hp (hb.outside k hk)), hrest⟩

/-! ## Reading -/

/-- How many bytes a read gets. -/
theorem length_next (s : DataClient) (i : Nat) (p : Page) (N : Nat) :
    ((s.openFile i p).next N).length = min N ((fileSize p).toNat - (p 1).toNat) := by
  unfold OpenFile.next
  rw [List.length_take, List.length_drop, s.length_openFile]
  rfl

theorem openFile_next {N : Nat} (hk : k < ((s.openFile i p).next N).length) :
    ((s.openFile i p).next N)[k]? = some ((s.mem.load (dataPlace i ((p 1).toNat + k))).getD 0) := by
  unfold OpenFile.next at hk ⊢
  rw [List.length_take, List.length_drop, s.length_openFile] at hk
  have hpos : (s.openFile i p).pos = (p 1).toNat := rfl
  rw [hpos] at hk ⊢
  rw [List.getElem?_take_of_lt (by omega), List.getElem?_drop]
  show ((List.range _).map _)[_]? = _
  rw [List.getElem?_map, List.getElem?_range (by omega)]
  rfl

/-- It is as many as `file_read` copies. -/
theorem toNat_fileRead (hsize : (fileSize p).toNat ≤ maxfilesize) (hn : n.toNat < 2 ^ 31) :
    (fileRead (fileSize p) n (p 1)).toNat = ((s.openFile i p).next n.toNat).length := by
  rw [length_next]
  rw [maxfilesize_eq] at hsize
  by_cases hle : (p 1).toNat ≤ (fileSize p).toNat
  · exact fileRead_fits (by omega) hle
  · have hgt : p 1 > fileSize p := by
      show (fileSize p).toNat < (p 1).toNat
      omega
    rw [fileRead, if_pos hgt]
    show 0 = _
    omega

/-- What the library does in a read. -/
theorem fdRead_call (h : s.Ok) (hp : s.lib.OpenFd i p) (hmode : p 2 &&& oAccmode ≠ oWronly)
    (hb : s.Buffer buf n) : FileOp.call i (.read buf n) s.lib =
      .ret (fileRead (fileSize p) n (p 1),
        span buf (index2data i + p 1) (fileRead (fileSize p) n (p 1)).toNat)
      { s.lib with fd := update s.lib.fd i (some (update p 1 (p 1 + fileRead (fileSize p) n (p 1)))) } := by
  have hN := toNat_fileRead (s := s) (i := i) (h.small i p hp) hb.lt
  rw [length_next] at hN
  have hsize := h.small i p hp
  have hmax := maxfilesize_eq
  have hlt := hb.lt
  have huser := hb.user
  generalize hR : fileRead (fileSize p) n (p 1) = N at hN
  have hN' : N.toNat < 2 ^ 31 := by omega
  -- behind the end nothing is copied
  have hcopies : (if p 1 > fileSize p then [] else userMemcpy buf (index2data i + p 1) N) =
      span buf (index2data i + p 1) N.toNat := by
    by_cases hgt : p 1 > fileSize p
    · have hgt' : (fileSize p).toNat < (p 1).toNat := hgt
      rw [if_pos hgt, show N.toNat = 0 by omega, span_zero]
    · have hle : (p 1).toNat ≤ (fileSize p).toNat := Nat.le_of_not_lt hgt
      have hsrc : (index2data i + p 1).toNat + N.toNat ≤ 2 ^ 31 := by
        have hwin := (window_bounds hp.lt).2
        rw [BitVec.toNat_add]
        omega
      rw [if_neg hgt, userMemcpy_all (by omega) hsrc]
  show fdRead i buf n s.lib = _
  rw [fdRead_passes hp hmode, bind_ret (fileReadFd_eq hp buf n (p 1)), hR, hcopies,
    bind_ret (advance_ret hp.fd hN')]
  rfl

theorem add_ofNat_sub (a buf : Word) : a = buf + BitVec.ofNat 32 (a - buf).toNat := by
  rw [BitVec.ofNat_toNat, BitVec.setWidth_eq, BitVec.add_comm, BitVec.sub_add_cancel]

/-- The user's memory, when the bytes `bs` have come into a buffer. -/
theorem user_received (hb : s.Buffer buf n) (mem : Mapping Nat Nat Nat Byte) (bs : List Byte)
    (hlen : bs.length ≤ n.toNat)
    (hgot : ∀ k < bs.length, mem.load (placeOf (buf + BitVec.ofNat 32 k)) = bs[k]?)
    (hrest : ∀ c, (∀ k < bs.length, c ≠ placeOf (buf + BitVec.ofNat 32 k)) → mem.load c = s.mem.load c) :
    (∀ a, inFileArea a → received s.files.user buf bs a = none) ∧
      ∀ a, ¬inFileArea a → mem.load (placeOf a) = received s.files.user buf bs a := by
  have hlt := hb.lt
  constructor
  · intro a ha
    unfold received
    by_cases hin : (a - buf).toNat < bs.length
    · exact absurd (add_ofNat_sub a buf ▸ ha) (hb.outside _ (by omega))
    · rw [if_neg hin, s.user_inside ha]
  · intro a ha
    unfold received
    by_cases hin : (a - buf).toNat < bs.length
    · have hget := hgot (a - buf).toNat hin
      rw [← add_ofNat_sub a buf] at hget
      rw [if_pos hin, hget]
    · rw [if_neg hin, s.user_outside ha]
      -- a place of the buffer would be that of an address in the buffer
      refine hrest _ fun k hk heq => hin ?_
      have hkn : k < 2 ^ 32 := by omega
      rw [placeOf_injective heq, BitVec.add_comm buf, BitVec.add_sub_cancel, BitVec.toNat_ofNat,
        Nat.mod_eq_of_lt hkn]
      exact hk

/-- **`read`** gives the bytes at the cursor. -/
theorem step_read (h : s.Ok) (hp : s.lib.OpenFd i p) (hs : s.Sends i sent) (hb : s.Buffer buf n) :
    ∃ r t, s.step i sent (.read buf n) = some (r, t) ∧ t.Ok ∧ s.files.Step i (.read buf n) r t.files := by
  have hsize := h.small i p hp
  by_cases hmode : p 2 &&& oAccmode = oWronly
  · refine ⟨_, s, DataClient.step_refused (fdRead_refused hp hmode buf n), h,
      .readRefused (s.file_open hp) ?_⟩
    exact decide_eq_false fun hc => hc hmode
  have hcall := fdRead_call h hp hmode hb
  have hstep := @Files.Step.read s.files i _ buf n (s.file_open hp) (decide_eq_true hmode)
  have hN := toNat_fileRead (s := s) (i := i) hsize hb.lt
  have hlen := length_next s i p n.toNat
  have hnext : ∀ k < ((s.openFile i p).next n.toNat).length, ((s.openFile i p).next n.toNat)[k]? =
      some ((s.mem.load (dataPlace i ((p 1).toNat + k))).getD 0) := fun k hk => openFile_next hk
  generalize fileRead (fileSize p) n (p 1) = N at hcall hN
  generalize (s.openFile i p).next n.toNat = bs at hN hlen hstep hnext
  have hm := (h.moved hp).advance (p 1 + N)
  have hq : ∀ k ≠ 1, update p 1 (p 1 + N) k = p k := fun k hk => update_of_ne hk _ _
  -- a read changes the descriptor only, so that no page comes or goes
  have hmem : s.remapped sent { s.lib with fd := update s.lib.fd i (some (update p 1 (p 1 + N))) } = s.mem :=
    s.remapped_self sent
  generalize ({ s.lib with fd := update s.lib.fd i (some (update p 1 (p 1 + N))) } : FileClient) = l' at *
  have hkeep : update p 1 (p 1 + N) 0 = p 0 ∧ update p 1 (p 1 + N) 3 = p 3 :=
    ⟨hq 0 (by decide), hq 3 (by decide)⟩
  refine ⟨.ok N, ⟨l', (s.remapped sent l').copy
    ((span buf (index2data i + p 1) N.toNat).map fun c => (placeOf c.1, placeOf c.2))⟩, ?_, ?_, ?_⟩
  · unfold DataClient.step
    rw [hcall]
  · exact hm.ok h hp hs hkeep (by rw [fileSize_update_one]; exact hsize) _
  obtain ⟨hgot, hrest⟩ := copy_to_buffer h hp hb (N := bs.length) (p 1).toNat (by omega) (by omega)
  rw [hmem, map_span, hN]
  simp only [placeOf_data]
  generalize s.mem.copy ((List.range bs.length).map fun k =>
    (placeOf (buf + BitVec.ofNat 32 k), dataPlace i ((p 1).toNat + k))) = mem at hgot hrest ⊢
  -- the buffer lies outside of all windows
  have hdata : ∀ j < maxfd, ∀ k < maxfilesize, mem.load (dataPlace j k) = s.mem.load (dataPlace j k) :=
    fun j hj k hk => hrest _ fun d hd => buffer_ne_data hb hj hk (by omega)
  have hfile : DataClient.openFile ⟨l', mem⟩ i (update p 1 (p 1 + N)) =
      { s.openFile i p with pos := (s.openFile i p).pos + bs.length } := by
    have hpos : (update p 1 (p 1 + N) 1).toNat = (p 1).toNat + bs.length := by
      have hp1 := (p 1).isLt
      rw [maxfilesize_eq] at hsize
      rw [update_self, BitVec.toNat_add]
      omega
    unfold DataClient.openFile
    rw [fileSize_update_one, hpos, hq 2 (by decide)]
    congr 1
    exact List.map_congr_left fun k hk => by
      rw [hdata i hp.lt k (lt_of_lt_of_le (List.mem_range.mp hk) hsize)]
  obtain ⟨hin, hout⟩ := user_received hb mem bs (by omega) (fun k hk => by
    obtain ⟨b, hload⟩ := Option.isSome_iff_exists.mp ((Mapping.load_isSome s.mem _).trans
      (h.mapped hp (k := (p 1).toNat + k) (by omega)))
    rw [hgot k hk, hnext k hk, hload]
    rfl) hrest
  rw [← hN, BitVec.ofNat_toNat, BitVec.setWidth_eq, hN] at hstep
  rw [DataClient.files_moved h hp hm hkeep (fun j hj _ => hdata j hj) hin hout, hfile]
  exact hstep

/-! ## Writing -/

/-- The page of the descriptor when there is room for `tot` bytes. -/
def grownTo (p : Page) (tot : Word) : Page := if tot > fileSize p then Page.setSize p tot else p

theorem fileSize_grownTo (p : Page) (tot : Word) :
    (fileSize (grownTo p tot)).toNat = max (fileSize p).toNat tot.toNat := by
  unfold grownTo
  by_cases h : tot > fileSize p
  · have h' : (fileSize p).toNat < tot.toNat := h
    rw [if_pos h, fileSize_setSize]
    omega
  · have h' : ¬(fileSize p).toNat < tot.toNat := h
    rw [if_neg h]
    omega

theorem setSize_of_ne (p : Page) (size : Word) (hk : k < 12) : Page.setSize p size k = p k := by
  have hne : k ≠ sizeAt p := by rcases sizeAt_cases p with h | h <;> omega
  exact update_of_ne hne _ _

theorem grownTo_of_ne (p : Page) (tot : Word) (hk : k < 12) : grownTo p tot k = p k := by
  unfold grownTo
  split
  · exact setSize_of_ne p tot hk
  · rfl

/-- **`file_write`** makes room for what it writes. -/
theorem fileWriteFd_moves (h : s.Ok) (hp : s.lib.OpenFd i p) (hfit : (offset + n).toNat ≤ maxfilesize) :
    Returns (fileWriteFd i buf n offset) s.lib fun r l' =>
      r = (n, userMemcpy (index2data i + offset) buf n) ∧ Moved i (grownTo p (offset + n)) s.lib l' := by
  have hsize := h.small i p hp
  unfold Returns grownTo
  rw [fileWriteFd, get_bind, hp.page, bind_ret (hp.getInfo s.lib)]
  simp only [if_neg (Nat.not_lt.mpr hfit)]
  by_cases hgrow : offset + n > fileSize p
  · rw [when_pos hgrow, if_pos hgrow]
    refine (ftruncate_moves hp h.granted hsize hfit (h.window i p hp)).call ?_
    intro _ l' hm
    exact .of_eq rfl ⟨rfl, hm⟩
  · rw [when_neg hgrow, if_neg hgrow]
    exact Returns.of_eq rfl ⟨rfl, h.moved hp⟩

/-- The bytes of a file after its size has changed. -/
theorem Moved.refitted (h : s.Ok) (hp : s.lib.OpenFd i p) (hm : Moved i q s.lib l')
    (hsize : (fileSize q).toNat ≤ maxfilesize) :
    Refitted (s.openFile i p).bytes (fileSize q).toNat ((List.range (fileSize q).toNat).map fun k =>
      ((s.remapped sent l').load (dataPlace i k)).getD 0) := by
  refine ⟨by rw [List.length_map, List.length_range], fun k hk hk' => ?_⟩
  rw [s.length_openFile] at hk'
  show _ = ((List.range _).map _)[k]?
  rw [List.getElem?_map, List.getElem?_map, List.getElem?_range hk, List.getElem?_range hk',
    Option.map_some, Option.map_some, hm.load_kept h hp hsize hk' hk]

/-- What the library does in a write for which there is room. -/
theorem fdWrite_call (buf : Word) (h : s.Ok) (hp : s.lib.OpenFd i p) (hmode : p 2 &&& oAccmode ≠ oRdonly)
    (hlt : n.toNat < 2 ^ 31) (hfit : (p 1 + n).toNat ≤ maxfilesize) :
    ∃ l' q, FileOp.call i (.write buf n) s.lib = .ret (n, userMemcpy (index2data i + p 1) buf n) l' ∧
      Moved i q s.lib l' ∧ q 1 = p 1 + n ∧ (∀ k < 12, k ≠ 1 → q k = p k) ∧
      (fileSize q).toNat = max (fileSize p).toNat (p 1 + n).toNat := by
  obtain ⟨_, l₁, heq, rfl, hm⟩ := (fileWriteFd_moves h hp hfit).exists_eq
  have hadv := advance_ret (l := l₁) (i := i) (r := n) (by rw [hm.fd, update_self]) hlt
  rw [grownTo_of_ne p _ (by decide)] at hadv
  refine ⟨_, _, ?_, hm.advance (p 1 + n), update_self _ _ _, fun k hk hne => ?_, ?_⟩
  · show fdWrite i buf n s.lib = _
    rw [fdWrite_passes hp hmode, bind_ret heq, bind_ret hadv]
    rfl
  · rw [update_of_ne hne, grownTo_of_ne p _ hk]
  · rw [fileSize_update_one, fileSize_grownTo]

/-- The bytes of a buffer. -/
def DataClient.bufferBytes (s : DataClient) (buf n : Word) : List Byte :=
  (List.range n.toNat).map fun k => (s.mem.load (placeOf (buf + BitVec.ofNat 32 k))).getD 0

theorem length_bufferBytes (s : DataClient) (buf n : Word) : (s.bufferBytes buf n).length = n.toNat := by
  rw [DataClient.bufferBytes, List.length_map, List.length_range]

theorem getElem?_bufferBytes (hk : k < n.toNat) : (s.bufferBytes buf n)[k]? =
    some ((s.mem.load (placeOf (buf + BitVec.ofNat 32 k))).getD 0) := by
  rw [DataClient.bufferBytes, List.getElem?_map, List.getElem?_range hk]
  rfl

theorem heldAt_bufferBytes (hb : s.Buffer buf n) : HeldAt s.files.user buf (s.bufferBytes buf n) := by
  intro k hk
  rw [length_bufferBytes] at hk
  obtain ⟨b, hload⟩ := Option.isSome_iff_exists.mp ((Mapping.load_isSome s.mem _).trans (hb.mapped k hk))
  rw [s.user_outside (hb.outside k hk), getElem?_bufferBytes hk, hload]
  rfl

/-- A write that the library refuses changes nothing. -/
theorem step_writeFull (h : s.Ok) (hp : s.lib.OpenFd i p) (hmode : p 2 &&& oAccmode ≠ oRdonly)
    (hfull : maxfilesize < (p 1 + n).toNat) (hwrap : (p 1 + n).toNat = (p 1).toNat + n.toNat) :
    ∃ r t, s.step i sent (.write buf n) = some (r, t) ∧ t.Ok ∧
      s.files.Step i (.write buf n) r t.files := by
  refine ⟨_, s, DataClient.step_refused ?_, h,
    .writeFull (s.file_open hp) (decide_eq_true hmode) (hwrap ▸ hfull)⟩
  have herr : fileWriteFd i buf n (p 1) s.lib = .err .noDisk s.lib := by
    rw [fileWriteFd, get_bind, hp.page, bind_ret (hp.getInfo s.lib)]
    simp only [if_pos hfull]
    rfl
  show fdWrite i buf n s.lib = _
  rw [fdWrite_passes hp hmode, bind_err herr]

/-- **`write`** puts the bytes at the cursor. -/
theorem step_write (h : s.Ok) (hp : s.lib.OpenFd i p) (hs : s.Sends i sent) (hb : s.Buffer buf n)
    (hwrap : (p 1).toNat + n.toNat < 2 ^ 32) : ∃ r t, s.step i sent (.write buf n) = some (r, t) ∧ t.Ok ∧
      s.files.Step i (.write buf n) r t.files := by
  by_cases hmode : p 2 &&& oAccmode = oRdonly
  · refine ⟨_, s, DataClient.step_refused (fdWrite_refused hp hmode buf n), h,
      .writeRefused (s.file_open hp) ?_⟩
    exact decide_eq_false fun hc => hc hmode
  have htot : (p 1 + n).toNat = (p 1).toNat + n.toNat := by
    rw [BitVec.toNat_add]
    omega
  by_cases hfit : (p 1 + n).toNat ≤ maxfilesize
  swap
  · exact step_writeFull h hp hmode (Nat.lt_of_not_le hfit) htot
  obtain ⟨l', q, hcall, hm, hq1, hq, hqsize⟩ := fdWrite_call buf h hp hmode hb.lt hfit
  rw [htot] at hqsize hfit
  have hsize := h.small i p hp
  have hqmax : (fileSize q).toNat ≤ maxfilesize := by omega
  have hkeep : q 0 = p 0 ∧ q 3 = p 3 := ⟨hq 0 (by decide) (by decide), hq 3 (by decide) (by decide)⟩
  -- the file as it is when it has grown and nothing has been copied yet
  have hbytes : Refitted (s.openFile i p).bytes (fileSize q).toNat
      ((List.range (fileSize q).toNat).map fun k =>
        ((s.remapped sent l').load (dataPlace i k)).getD 0) := hm.refitted h hp hqmax
  refine ⟨.ok n, ⟨l', (s.remapped sent l').copy
    ((userMemcpy (index2data i + p 1) buf n).map fun c => (placeOf c.1, placeOf c.2))⟩, ?_, ?_, ?_⟩
  · unfold DataClient.step
    rw [hcall]
  · exact hm.ok h hp hs hkeep hqmax _
  -- a file ends within its window, where `memcpy` is not cut off
  have hdst : (index2data i + p 1).toNat + n.toNat ≤ 2 ^ 31 := by
    have hwin := window_bounds hp.lt
    rw [maxfilesize_eq] at hfit
    rw [BitVec.toNat_add]
    omega
  obtain ⟨hgot, hrest⟩ := copy_to_file h hp hm hs hb (p 1).toNat hqmax (by omega)
  rw [userMemcpy_all hdst hb.user, map_span]
  simp only [placeOf_data]
  generalize (s.remapped sent l').copy ((List.range n.toNat).map fun k =>
    (dataPlace i ((p 1).toNat + k), placeOf (buf + BitVec.ofNat 32 k))) = mem at hgot hrest ⊢
  have hlen := length_bufferBytes s buf n
  have hfile : DataClient.openFile ⟨l', mem⟩ i q = { s.openFile i p with
      bytes := overwrite ((List.range (fileSize q).toNat).map fun k =>
        ((s.remapped sent l').load (dataPlace i k)).getD 0) (s.openFile i p).pos (s.bufferBytes buf n)
      pos := (s.openFile i p).pos + (s.bufferBytes buf n).length } := by
    -- a place of the file is one of those that are written, or keeps its byte
    have hover : (List.range (fileSize q).toNat).map (fun k => (mem.load (dataPlace i k)).getD 0) =
        overwrite ((List.range (fileSize q).toNat).map fun k =>
          ((s.remapped sent l').load (dataPlace i k)).getD 0) (p 1).toNat (s.bufferBytes buf n) := by
      refine map_range_overwrite (by omega) (fun k hk => ?_) fun k hk hout => ?_
      · rw [hlen] at hk
        rw [getElem?_bufferBytes hk, hgot k hk]
      · rw [hrest _ fun d hd heq => ?_]
        have := (dataPlace_inj hp.lt hp.lt (by omega) (by omega) heq).2
        omega
    unfold DataClient.openFile
    rw [hover, hq1, htot, hq 2 (by decide) (by decide), hlen]
  rw [DataClient.files_moved h hp hm hkeep (u := s.files.user) ?_ (fun a ha => s.user_inside ha) ?_, hfile]
  · refine .write (s.file_open hp) (decide_eq_true hmode) hlen (heldAt_bufferBytes hb) ?_ ?_
    · rw [hlen]
      exact hfit
    · rw [s.length_openFile, hlen]
      rw [hqsize] at hbytes
      rw [hqsize]
      exact hbytes
  · intro j hj hji k hk
    rw [hrest _ fun d hd heq => hji (dataPlace_inj hj hp.lt hk (by omega) heq).1]
    exact hm.load_other hp hj hji hk
  · intro a ha
    rw [s.user_outside ha, hrest _ fun d hd => placeOf_ne_data ha hp.lt (by omega)]
    exact hm.load_user hp ha

/-! ## The other calls -/

theorem DataClient.step_moved (s : DataClient) {w : Word} (hcall : op.call i s.lib = .ret (w, []) l') :
    s.step i sent op = some (.ok w, ⟨l', s.remapped sent l'⟩) := by
  unfold DataClient.step
  rw [hcall]
  rfl

theorem step_seek (h : s.Ok) (hp : s.lib.OpenFd i p) (hs : s.Sends i sent) : ∃ r t,
    s.step i sent (.seek offset) = some (r, t) ∧ t.Ok ∧ s.files.Step i (.seek offset) r t.files := by
  have hsize := h.small i p hp
  have hm := (h.moved hp).advance offset
  have hq : update p 1 offset 0 = p 0 ∧ update p 1 offset 3 = p 3 :=
    ⟨update_of_ne (by decide) _ _, update_of_ne (by decide) _ _⟩
  have hcall : FileOp.call i (.seek offset) s.lib =
      .ret (0, []) { s.lib with fd := update s.lib.fd i (some (update p 1 offset)) } := by
    have hset : s.lib.setFd i 1 offset =
        { s.lib with fd := update s.lib.fd i (some (update p 1 offset)) } := by
      unfold FileClient.setFd
      rw [hp.fd]
      rfl
    have hseek : fdSeek i offset s.lib = .ret () (s.lib.setFd i 1 offset) := by
      rw [fdSeek, bind_ret hp.lookup]
      rfl
    rw [hset] at hseek
    exact bind_ret hseek
  have hmem : s.remapped sent { s.lib with fd := update s.lib.fd i (some (update p 1 offset)) } = s.mem :=
    s.remapped_self sent
  generalize ({ s.lib with fd := update s.lib.fd i (some (update p 1 offset)) } : FileClient) = l' at *
  refine ⟨_, _, s.step_moved hcall, hm.ok h hp hs hq (by rw [fileSize_update_one]; exact hsize) [], ?_⟩
  rw [hmem]
  have hfile : DataClient.openFile ⟨l', s.mem⟩ i (update p 1 offset) =
      { s.openFile i p with pos := offset.toNat } := by
    have hflags : update p 1 offset 2 = p 2 := update_of_ne (by decide) _ _
    unfold DataClient.openFile
    rw [fileSize_update_one, hflags, update_self]
  rw [DataClient.files_moved h hp hm hq (u := s.files.user) (fun _ _ _ _ _ => rfl)
    (fun a ha => s.user_inside ha) (fun a ha => (s.user_outside ha).symm), hfile]
  exact .seek (s.file_open hp)

theorem step_truncate (h : s.Ok) (hp : s.lib.OpenFd i p) (hs : s.Sends i sent) : ∃ r t,
    s.step i sent (.truncate size) = some (r, t) ∧ t.Ok ∧ s.files.Step i (.truncate size) r t.files := by
  by_cases hfit : size.toNat ≤ maxfilesize
  swap
  · have hfull : ftruncate i size s.lib = .err .noDisk s.lib := by
      rw [ftruncate, if_pos (Nat.lt_of_not_le hfit)]
      rfl
    exact ⟨_, s, DataClient.step_refused (bind_err hfull), h,
      .truncateFull (s.file_open hp) (Nat.lt_of_not_le hfit)⟩
  obtain ⟨_, l', heq, hm⟩ :=
    (ftruncate_moves hp h.granted (h.small i p hp) hfit (h.window i p hp)).exists_eq
  have hcall : FileOp.call i (.truncate size) s.lib = .ret (0, []) l' := bind_ret heq
  have hq : ∀ k < 12, Page.setSize p size k = p k := fun k hk => setSize_of_ne p size hk
  have hqsize : fileSize (Page.setSize p size) = size := fileSize_setSize p size
  have hbytes : Refitted (s.openFile i p).bytes (fileSize (Page.setSize p size)).toNat
      ((List.range (fileSize (Page.setSize p size)).toNat).map fun k =>
        ((s.remapped sent l').load (dataPlace i k)).getD 0) :=
    hm.refitted h hp (by rw [hqsize]; exact hfit)
  generalize Page.setSize p size = q at hm hq hqsize hbytes
  have hkeep : q 0 = p 0 ∧ q 3 = p 3 := ⟨hq 0 (by decide), hq 3 (by decide)⟩
  refine ⟨_, _, s.step_moved hcall, hm.ok h hp hs hkeep (by rw [hqsize]; exact hfit) [], ?_⟩
  have hfile : DataClient.openFile ⟨l', s.remapped sent l'⟩ i q = { s.openFile i p with
      bytes := (List.range (fileSize q).toNat).map fun k =>
        ((s.remapped sent l').load (dataPlace i k)).getD 0 } := by
    unfold DataClient.openFile
    rw [hq 1 (by decide), hq 2 (by decide)]
  rw [DataClient.files_moved h hp hm hkeep (u := s.files.user)
    (fun j hj hji k hk => hm.load_other hp hj hji hk) (fun a ha => s.user_inside ha)
    (fun a ha => (hm.load_user hp ha).trans (s.user_outside ha).symm), hfile]
  rw [hqsize] at hbytes ⊢
  exact .truncate (s.file_open hp) hfit hbytes

/-! ## Runs -/

/-- **A call of the library** comes back, and is a call of `Files`. -/
theorem step_refines (h : s.Ok) (hp : s.lib.OpenFd i p) (hs : s.Sends i sent) (hf : op.Fits s p) :
    ∃ r t, s.step i sent op = some (r, t) ∧ t.Ok ∧ s.files.Step i op r t.files := by
  cases op with
  | read buf n => exact step_read h hp hs hf
  | write buf n => exact step_write h hp hs hf.1 hf.2
  | seek offset => exact step_seek h hp hs
  | truncate size => exact step_truncate h hp hs

/-- Calls for open files, one after the other, with what they return. -/
inductive DataClient.Run : DataClient → List (Nat × FileOp × Except Err Word) → DataClient → Prop
  | nil {s : DataClient} : DataClient.Run s [] s
  | cons {s t u : DataClient} {i : Nat} {p : Page} {sent : Nat → Nat} {op : FileOp} {r : Except Err Word}
    {ops : List (Nat × FileOp × Except Err Word)} (hp : s.lib.OpenFd i p) (hs : s.Sends i sent)
    (hf : op.Fits s p) (hstep : s.step i sent op = some (r, t)) (h : DataClient.Run t ops u) :
    DataClient.Run s ((i, op, r) :: ops) u

/-- The same for byte arrays. -/
inductive Files.Run : Files → List (Nat × FileOp × Except Err Word) → Files → Prop
  | nil {F : Files} : Files.Run F [] F
  | cons {F G H : Files} {i : Nat} {op : FileOp} {r : Except Err Word}
    {ops : List (Nat × FileOp × Except Err Word)} (hstep : F.Step i op r G) (h : Files.Run G ops H) :
    Files.Run F ((i, op, r) :: ops) H

theorem DataClient.Run.refines {ops : List (Nat × FileOp × Except Err Word)} (hrun : s.Run ops t)
    (h : s.Ok) : t.Ok ∧ s.files.Run ops t.files := by
  induction hrun with
  | nil => exact ⟨h, .nil⟩
  | cons hp hs hf hstep _ ih =>
    obtain ⟨r', t', hstep', hok, hfiles⟩ := step_refines h hp hs hf
    -- the model is a function: the step of the run is the one that refines `Files`
    rw [hstep] at hstep'
    obtain ⟨rfl, rfl⟩ := Prod.mk.inj (Option.some.inj hstep')
    obtain ⟨hend, hrest⟩ := ih hok
    exact ⟨hend, .cons hfiles hrest⟩

/-- **Open files are byte arrays with cursors.** In every run of `read`, `write`, `seek` and `ftruncate` on any
open files in any order, each call returns what it returns for byte arrays, and the files and the rest of the
memory are what they are there. And a next call comes back. -/
theorem files_refined {ops : List (Nat × FileOp × Except Err Word)} (h : s.Ok) (hrun : s.Run ops t) :
    s.files.Run ops t.files ∧ ∀ i p sent op, t.lib.OpenFd i p → t.Sends i sent → op.Fits t p →
      ∃ r u, t.step i sent op = some (r, u) := by
  obtain ⟨hend, hfiles⟩ := hrun.refines h
  refine ⟨hfiles, fun i p sent op hp hs hf => ?_⟩
  obtain ⟨r, u, hstep, -, -⟩ := step_refines hend hp hs hf
  exact ⟨r, u, hstep⟩

/-- The client of a file of one page, which is in frame 1, with a buffer at `UTEXT`. -/
def bytesClient : DataClient where
  lib := pageClient
  mem := { frame := fun v => if v = 0x60000 then some 1 else if v = 0x400 then some 2 else none
           cell := fun _ _ => 7 }

theorem bytesClient_openFd (h : bytesClient.lib.OpenFd i p) : i = 0 ∧ p = pageFd := by
  have hfd : (if i = 0 then some pageFd else none) = some p := h.fd
  split at hfd
  · next hi => exact ⟨hi, (Option.some.inj hfd).symm⟩
  · cases hfd

theorem bytesClient_ok : bytesClient.Ok where
  apart v w f hv hw := by
    have hv' : (if v = 0x60000 then some 1 else if v = 0x400 then some 2 else none) = some f := hv
    have hw' : (if w = 0x60000 then some 1 else if w = 0x400 then some 2 else none) = some f := hw
    grind
  granted _ := rfl
  small i p h := by
    obtain ⟨rfl, rfl⟩ := bytesClient_openFd h
    decide
  window i p h := by
    obtain ⟨rfl, rfl⟩ := bytesClient_openFd h
    have hsize : roundPages (fileSize pageFd) = 1 := by decide
    intro j hj
    rw [hsize, dataPage_eq (by decide) hj]
    show decide (0x60000 + 0 * 1024 + j = 0x60000) = true ↔ j < 1
    rw [decide_eq_true_eq]
    omega
  shown i p h j hj := by
    obtain ⟨rfl, rfl⟩ := bytesClient_openFd h
    rw [dataPage_eq (by decide) hj]
    show (if 0x60000 + 0 * 1024 + j = 0x60000 then some 1
      else if 0x60000 + 0 * 1024 + j = 0x400 then some 2 else none).isSome = decide _
    by_cases hj0 : 0x60000 + 0 * 1024 + j = 0x60000
    · rw [if_pos hj0]
      exact (decide_eq_true hj0).symm
    · rw [if_neg hj0, if_neg (by omega)]
      exact (decide_eq_false hj0).symm

/-- Two bytes of the buffer are written to the file. -/
theorem files_refined_small : ∃ t r, bytesClient.Run [(0, .write utext 2, r)] t ∧
    bytesClient.files.Run [(0, .write utext 2, r)] t.files := by
  have hsent : bytesClient.Sends 0 (fun v => v + 3) := by
    refine ⟨fun j _ v hv => ?_, fun j hj j' hj' heq => ?_⟩
    · have hv' : (if v = 0x60000 then some 1 else if v = 0x400 then some 2 else none) =
        some (dataPage 0 j + 3) := hv
      grind
    · exact (dataPage_inj (by decide) (by decide) hj hj' (Nat.add_right_cancel heq)).2
  have hbuf : bytesClient.Buffer utext 2 := ⟨by decide, by decide, by decide, by decide⟩
  have hfits : FileOp.Fits bytesClient pageFd (.write utext 2) := ⟨hbuf, by decide⟩
  obtain ⟨r, t, hstep, -, -⟩ := step_refines bytesClient_ok pageClient_open hsent hfits
  have hrun : bytesClient.Run [(0, .write utext 2, r)] t := .cons pageClient_open hsent hfits hstep .nil
  exact ⟨t, r, hrun, (files_refined bytesClient_ok hrun).1⟩

end Mos
