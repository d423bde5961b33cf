import Linux011.Path.Files

/-!
# Calls by name

What `access`, `stat`, `chdir`, `chroot`, `chmod`, `chown` and `utime` do to the files and to the process, next to
the calls of `fs/open.c` and `fs/stat.c` themselves. A system is a number of processes that make such calls, one
after the other.
-/

namespace Linux011.Path

open Linux011.Fs

/-- A call, with its arguments. -/
inductive Request where
  | access (filename : Name) (mode : Nat)
  | stat (filename : Name)
  | chdir (filename : Name)
  | chroot (filename : Name)
  | chmod (filename : Name) (mode : Nat)
  | chown (filename : Name) (uid gid : Nat)
  | utime (filename : Name) (times : Option (UInt32 × UInt32))

namespace Request

def filename : Request → Name
  | .access filename _ | .stat filename | .chdir filename | .chroot filename | .chmod filename _
  | .chown filename _ _ | .utime filename _ => filename

/-- The call as the kernel makes it. -/
def perform (fuel : Nat) : Request → Call (Int × Option Stat)
  | .access filename mode => do return (← sysAccess fuel filename mode, none)
  | .stat filename => sysStat fuel filename
  | .chdir filename => do return (← sysChdir fuel filename, none)
  | .chroot filename => do return (← sysChroot fuel filename, none)
  | .chmod filename mode => do return (← sysChmod fuel filename mode, none)
  | .chown filename uid gid => do return (← sysChown fuel filename uid gid, none)
  | .utime filename times => do
    return (← sysUtime fuel filename (times.map fun t => (t.1.toNat, t.2.toNat)), none)

end Request

/-! ## Files that change -/

namespace DiskInode

variable {n : DiskInode}

/-- The type of the file stays. -/
def chmod (mode : Nat) (n : DiskInode) : DiskInode := { n with iMode := mode &&& 0o7777 ||| n.iMode.ldiff 0o7777 }

def chown (uid gid : Nat) (n : DiskInode) : DiskInode := { n with iUid := uid % 2 ^ 16, iGid := gid % 2 ^ 8 }

def utime (modtime : UInt32) (n : DiskInode) : DiskInode := { n with iTime := modtime.toNat }

theorem Fits.chmod (h : n.Fits) (mode : Nat) : (n.chmod mode).Fits := by
  refine { h with mode := Nat.or_lt_two_pow (Nat.and_lt_two_pow _ (by decide)) ?_ }
  refine Nat.lt_pow_two_of_testBit _ fun k hk => ?_
  have hbit := Nat.testBit_lt_two_pow (h.mode.trans_le (Nat.pow_le_pow_right (by decide) hk))
  rw [Nat.testBit_ldiff, hbit, Bool.false_and]

theorem Fits.chown (h : n.Fits) (uid gid : Nat) : (n.chown uid gid).Fits :=
  { h with uid := Nat.mod_lt _ (by decide), gid := Nat.mod_lt _ (by decide) }

theorem Fits.utime (h : n.Fits) (modtime : UInt32) : (n.utime modtime).Fits := { h with time := modtime.toNat_lt }

theorem isDir_chmod (mode : Nat) : isDir (n.chmod mode).iMode = isDir n.iMode := by
  have hbits : (mode &&& 0o7777 ||| n.iMode.ldiff 0o7777) &&& 0xF000 = n.iMode &&& 0xF000 := by
    apply Nat.eq_of_testBit_eq
    intro k
    have hmask : (Nat.testBit 0o7777 k && Nat.testBit 0xF000 k) = false := by
      rw [← Nat.testBit_and]
      exact Nat.zero_testBit k
    rw [Nat.testBit_and, Nat.testBit_or, Nat.testBit_ldiff, Nat.testBit_and, Nat.testBit_and]
    grind
  unfold isDir
  show ((mode &&& 0o7777 ||| n.iMode.ldiff 0o7777) &&& 0xF000 == 0x4000) = _
  rw [hbits]

end DiskInode

namespace Files

variable (F : Files)

/-- A file gets another inode. -/
def change (n : Node) (D : DiskInode) (hD : D.Fits) : Files where
  file := Function.update F.file n D
  block := F.block
  first := F.first
  inodes := F.inodes
  mounted := F.mounted
  cover := F.cover
  fits n' := by
    rcases eq_or_ne n' n with rfl | hne
    · rwa [Function.update_self]
    · rw [Function.update_of_ne hne]
      exact F.fits n'

/-- The owners, the permissions and the times may differ. -/
structure Alike (F F' : Files) : Prop where
  block : F'.block = F.block
  first : F'.first = F.first
  inodes : F'.inodes = F.inodes
  mounted : F'.mounted = F.mounted
  cover : F'.cover = F.cover
  links : ∀ n, (F'.file n).iNlinks = (F.file n).iNlinks
  dir : ∀ n, isDir (F'.file n).iMode = isDir (F.file n).iMode
  size : ∀ n, (F'.file n).iSize = (F.file n).iSize
  zone : ∀ n, (F'.file n).iZone = (F.file n).iZone

namespace Alike

variable {F F' F'' : Files} {n : Node} {D : DiskInode}

theorem refl : Alike F F := ⟨rfl, rfl, rfl, rfl, rfl, fun _ => rfl, fun _ => rfl, fun _ => rfl, fun _ => rfl⟩

theorem trans (h : Alike F F') (h' : Alike F' F'') : Alike F F'' where
  block := h'.block.trans h.block
  first := h'.first.trans h.first
  inodes := h'.inodes.trans h.inodes
  mounted := h'.mounted.trans h.mounted
  cover := h'.cover.trans h.cover
  links n := (h'.links n).trans (h.links n)
  dir n := (h'.dir n).trans (h.dir n)
  size n := (h'.size n).trans (h.size n)
  zone n := (h'.zone n).trans (h.zone n)

theorem change (hD : D.Fits) (hlinks : D.iNlinks = (F.file n).iNlinks) (hdir : isDir D.iMode = isDir (F.file n).iMode)
    (hsize : D.iSize = (F.file n).iSize) (hzone : D.iZone = (F.file n).iZone) : Alike F (F.change n D hD) := by
  have hcases (n' : Node) : (F.change n D hD).file n' = F.file n' ∨ n' = n ∧ (F.change n D hD).file n' = D := by
    show Function.update F.file n D n' = _ ∨ _ ∧ Function.update F.file n D n' = _
    rcases eq_or_ne n' n with rfl | hne
    · rw [Function.update_self]
      exact .inr ⟨rfl, rfl⟩
    · rw [Function.update_of_ne hne]
      exact .inl rfl
  refine ⟨rfl, rfl, rfl, rfl, rfl, fun n' => ?_, fun n' => ?_, fun n' => ?_, fun n' => ?_⟩
  all_goals
    rcases hcases n' with heq | ⟨rfl, heq⟩
    · rw [heq]
    · rw [heq]
      assumption

section

variable (h : Alike F F')

include h

theorem index_eq : F'.index = F.index := by
  unfold Files.index
  rw [h.block]

theorem zone_eq : F'.zone = F.zone := by
  funext d k
  unfold Files.zone
  rw [h.zone, h.index_eq]

theorem isEntry_eq : F'.isEntry = F.isEntry := by
  funext d name i
  unfold Files.isEntry Files.entries
  rw [h.block, h.zone_eq]

theorem search_eq : F'.search = F.search := by
  funext d name n
  unfold Files.search Files.entries
  rw [h.isEntry_eq, h.block, h.zone_eq]

theorem size_eq : F'.size = F.size := by
  funext d
  unfold Files.size
  rw [h.size]

theorem look_eq : F'.look = F.look := by
  funext root d name
  unfold Files.look Files.dotDot
  simp only [h.cover, h.zone, h.search_eq, h.size_eq]

theorem cross_eq (fuel : Nat) : F'.cross fuel = F.cross fuel := by
  induction fuel with
  | zero => rfl
  | succ fuel ih =>
    funext n
    unfold Files.cross
    rw [h.mounted, ih]

theorem valid (hn : F.Valid n) : F'.Valid n := ⟨h.first ▸ hn.known, hn.pos, h.inodes ▸ hn.le⟩

theorem symm : Alike F' F where
  block := h.block.symm
  first := h.first.symm
  inodes := h.inodes.symm
  mounted := h.mounted.symm
  cover := h.cover.symm
  links n := (h.links n).symm
  dir n := (h.dir n).symm
  size n := (h.size n).symm
  zone n := (h.zone n).symm

theorem linked (hn : F.Linked n) : F'.Linked n := ⟨h.valid hn.toValid, by rw [h.links]; exact hn.links⟩

theorem directory (hn : F.Directory n) : F'.Directory n := ⟨h.linked hn.toLinked, by rw [h.dir]; exact hn.dir⟩

theorem uses {b : Nat} (hb : F'.Uses n b) : F.Uses n b := by
  have hfile (k : Fin 9) : (F'.file n).iZone k = (F.file n).iZone k := by rw [h.zone]
  cases hb with
  | direct k => exact hfile k ▸ .direct k
  | single hk =>
    rw [h.index_eq, hfile]
    exact .single hk
  | indirect hk =>
    rw [h.index_eq, hfile]
    exact .indirect hk
  | double hj hk =>
    rw [h.index_eq, hfile]
    exact .double hj hk

/-- What `fsck` makes sure of stays. -/
theorem whole (hw : F.Whole) : F'.Whole where
  linked d hd name nr hnr := by
    rw [h.search_eq, h.size_eq] at hnr
    exact h.linked (hw.linked d (h.symm.directory hd) name nr hnr)
  dense d hd k hk := by
    rw [h.size_eq] at hk
    rw [h.zone_eq]
    exact hw.dense d (h.symm.directory hd) k hk
  zones d hd z hz b hb := by
    rw [h.first] at hz
    exact hw.zones d (h.symm.directory hd) z hz b (h.uses hb)
  roots n dev hdev := by
    rw [h.mounted] at hdev
    exact h.linked (hw.roots n dev hdev)
  covers dev m hm := by
    rw [h.cover] at hm
    rw [h.size_eq, h.isEntry_eq]
    exact ⟨h.directory (hw.covers dev m hm).1, (hw.covers dev m hm).2⟩

end

end Alike

/-- What `access` lets a process do, by its real ids. -/
def access (c : Caller) (n : Node) (mode : Nat) : Bool :=
  let d := F.file n
  let bits := d.iMode &&& 0o777
  let res := if c.uid = d.iUid ∨ c.gid = d.iGid then bits / 2 ^ 6 else bits
  decide (res &&& 0o7 &&& mode = mode) || decide (c.uid = 0 ∧ (mode &&& 1 = 0 ∨ bits &&& 0o111 ≠ 0))

end Files

/-- The result of a call, what it tells of a file, and the files and the process afterwards. -/
structure Reply where
  code : Int
  told : Option (Node × DiskInode)
  files : Files
  caller : Caller

namespace Request

variable (fuel : Nat) (now : UInt32) (F : Files) (c : Caller)

/-- What the call does to the file that it is about. -/
def act (n : Node) : Request → Reply
  | .access _ mode => ⟨if F.access c n (mode &&& 0o7) then 0 else -eAcces, none, F, c⟩
  | .stat _ => ⟨0, some (n, F.file n), F, c⟩
  | .chdir _ => if isDir (F.file n).iMode then ⟨0, none, F, { c with pwd := n }⟩ else ⟨-eNotdir, none, F, c⟩
  | .chroot _ => if isDir (F.file n).iMode then ⟨0, none, F, { c with root := n }⟩ else ⟨-eNotdir, none, F, c⟩
  | .chmod _ mode =>
    if c.euid = (F.file n).iUid ∨ c.euid = 0 then ⟨0, none, F.change n _ ((F.fits n).chmod mode), c⟩
    else ⟨-eAcces, none, F, c⟩
  | .chown _ uid gid =>
    if c.euid = 0 then ⟨0, none, F.change n _ ((F.fits n).chown uid gid), c⟩ else ⟨-eAcces, none, F, c⟩
  | .utime _ times =>
    ⟨0, none, F.change n _ ((F.fits n).utime ((times.map Prod.snd).getD now)), c⟩

/-- The error of a call that finds no file. -/
def missing : Request → Int
  | .access .. => -eAcces
  | _ => -eNoent

def reply (q : Request) : Reply :=
  match F.resolve fuel c q.filename with
  | none => ⟨q.missing, none, F, c⟩
  | some n => q.act now F c n

variable {fuel now F c}

theorem reply_none {q : Request} (h : F.resolve fuel c q.filename = none) :
    q.reply fuel now F c = ⟨q.missing, none, F, c⟩ := by
  unfold reply
  rw [h]

theorem reply_some {q : Request} {n : Node} (h : F.resolve fuel c q.filename = some n) :
    q.reply fuel now F c = q.act now F c n := by
  unfold reply
  rw [h]

theorem act_alike (q : Request) (n : Node) : Files.Alike F (q.act now F c n).files := by
  cases q with
  | access => exact .refl
  | stat => exact .refl
  | chdir =>
    simp only [act]
    split <;> exact .refl
  | chroot =>
    simp only [act]
    split <;> exact .refl
  | chmod _ mode =>
    simp only [act]
    split
    · exact .change ((F.fits n).chmod mode) rfl (DiskInode.isDir_chmod mode) rfl rfl
    · exact .refl
  | chown _ uid gid =>
    simp only [act]
    split
    · exact .change ((F.fits n).chown uid gid) rfl rfl rfl rfl
    · exact .refl
  | utime _ times => exact .change ((F.fits n).utime _) rfl rfl rfl rfl

theorem reply_alike (q : Request) : Files.Alike F (q.reply fuel now F c).files := by
  unfold reply
  split
  · exact .refl
  · exact q.act_alike _

end Request

/-! ## Systems -/

/-- A call of the process `pid`, with the time and the ids of the process at that time. -/
structure Event where
  pid : Nat
  now : UInt32
  uid : Nat
  euid : Nat
  gid : Nat
  egid : Nat
  request : Request

/-- The files and the processes. -/
structure World where
  files : Files
  caller : Nat → Caller

namespace World

variable (fuel : Nat)

/-- The process with its ids of the time. -/
def callerAt (W : World) (e : Event) : Caller :=
  { W.caller e.pid with uid := e.uid, euid := e.euid, gid := e.gid, egid := e.egid }

def serve (W : World) (e : Event) : (Int × Option (Node × DiskInode)) × World :=
  let r := e.request.reply fuel e.now W.files (W.callerAt e)
  ((r.code, r.told), ⟨r.files, Function.update W.caller e.pid r.caller⟩)

def run : List Event → World → List (Int × Option (Node × DiskInode)) × World
  | [], W => ([], W)
  | e :: es, W =>
    let (a, W) := W.serve fuel e
    let (as, W) := W.run es
    (a :: as, W)

end World

end Linux011.Path
