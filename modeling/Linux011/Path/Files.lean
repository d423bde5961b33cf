import Linux011.Path.Open

/-!
# The files behind the tables

What the path names are about, without an inode table, buffers, counts and locks: every file has an inode,
every device has blocks, and some devices are mounted. Names are looked up here by functions of the files. The
entries of a directory that `..` leads out of a device to are counted as in the directory that it leads out
of, as in `find_entry`.
-/

namespace Linux011.Path

open Linux011.Fs

/-- A file, by its device and its number there. -/
abbrev Node := Nat × Nat

/-- `struct d_inode` -/
@[ext] structure DiskInode where
  iMode : Nat
  iUid : Nat
  iSize : Nat
  iTime : Nat
  iGid : Nat
  iNlinks : UInt8
  iZone : Fin 9 → Nat

/-- The fields are as wide as on the disk. -/
structure DiskInode.Fits (n : DiskInode) : Prop where
  mode : n.iMode < 2 ^ 16
  uid : n.iUid < 2 ^ 16
  size : n.iSize < 2 ^ 32
  time : n.iTime < 2 ^ 32
  gid : n.iGid < 2 ^ 8
  zone : ∀ k, n.iZone k < 2 ^ 16

def MInode.node (n : MInode) : Node := (n.iDev, n.iNum)

/-- The part of an inode that is on the disk. -/
def MInode.stored (n : MInode) : DiskInode :=
  ⟨n.iMode, n.iUid, n.iSize, n.iMtime, n.iGid, n.iNlinks, fun k => n.iZone k⟩

/-! ## The bytes of an inode -/

section

variable {n : MInode} {j : Nat} {data : Nat → UInt8}

theorem word_put_other {t j' : Nat} (ht : t < 16) (hj : j' ≠ j) :
    Dev.word (putDInode n j data) (16 * j' + t) = Dev.word data (16 * j' + t) := by
  have h0 : 2 * (16 * j' + t) / 32 ≠ j := by omega
  have h1 : (2 * (16 * j' + t) + 1) / 32 ≠ j := by omega
  simp only [Dev.word, putDInode, if_neg h0, if_neg h1]

theorem word_put {t : Nat} (ht : t < 16) :
    Dev.word (putDInode n j data) (16 * j + t) =
      (dInodeByte n (2 * t)).toNat + 256 * (dInodeByte n (2 * t + 1)).toNat := by
  have h0 : 2 * (16 * j + t) / 32 = j := by omega
  have h1 : (2 * (16 * j + t) + 1) / 32 = j := by omega
  have h0' : 2 * (16 * j + t) % 32 = 2 * t := by omega
  have h1' : (2 * (16 * j + t) + 1) % 32 = 2 * t + 1 := by omega
  simp only [Dev.word, putDInode, if_pos h0, if_pos h1, h0', h1']

theorem byte_put {t : Nat} (ht : t < 32) : putDInode n j data (32 * j + t) = dInodeByte n t := by
  have h0 : (32 * j + t) / 32 = j := by omega
  have h1 : (32 * j + t) % 32 = t := by omega
  simp only [putDInode, if_pos h0, h1]

theorem two_bytes {v : Nat} (hv : v < 2 ^ 16) :
    (UInt8.ofNat v).toNat + 256 * (UInt8.ofNat (v / 256)).toNat = v := by
  simp only [UInt8.toNat_ofNat']
  omega

/-- What is written to the disk is read back. -/
theorem stored_put (hn : n.stored.Fits) (n₀ : MInode) : (getDInode (putDInode n j data) j n₀).stored = n.stored := by
  have hmode := hn.mode
  have huid := hn.uid
  have hsize := hn.size
  have htime := hn.time
  have hgid := hn.gid
  simp only [MInode.stored] at hmode huid hsize htime hgid
  ext1
  · show Dev.word _ (16 * j + 0) = n.iMode
    rw [word_put (by decide)]
    simpa [dInodeByte] using two_bytes hmode
  · show Dev.word _ (16 * j + 1) = n.iUid
    rw [word_put (by decide)]
    simpa [dInodeByte] using two_bytes huid
  · show Dev.word _ (16 * j + 2) + 2 ^ 16 * Dev.word _ (16 * j + 3) = n.iSize
    rw [word_put (by decide), word_put (by decide)]
    simp [dInodeByte]
    omega
  · show Dev.word _ (16 * j + 4) + 2 ^ 16 * Dev.word _ (16 * j + 5) = n.iMtime
    rw [word_put (by decide), word_put (by decide)]
    simp [dInodeByte]
    omega
  · show (putDInode n j data (32 * j + 12)).toNat = n.iGid
    rw [byte_put (by decide)]
    simp [dInodeByte]
    omega
  · show putDInode n j data (32 * j + 13) = n.iNlinks
    rw [byte_put (by decide)]
    simp [dInodeByte]
  · funext k
    have hk := k.isLt
    have hzone : n.iZone k < 2 ^ 16 := hn.zone k
    show Dev.word _ (16 * j + 7 + k) = n.iZone k
    rw [add_assoc, word_put (by omega)]
    have h0 : 2 * (7 + (k : Nat)) - 14 = 2 * k := by omega
    have h1 : 2 * (7 + (k : Nat)) + 1 - 14 = 2 * k + 1 := by omega
    have hbyte0 : dInodeByte n (2 * (7 + k)) = UInt8.ofNat (n.iZone k) := by
      unfold dInodeByte
      rw [if_neg (by omega), if_neg (by omega), if_neg (by omega), if_neg (by omega), if_neg (by omega),
        if_neg (by omega), h0]
      simp [Nat.mul_mod_right]
    have hbyte1 : dInodeByte n (2 * (7 + k) + 1) = UInt8.ofNat (n.iZone k / 256) := by
      unfold dInodeByte
      rw [if_neg (by omega), if_neg (by omega), if_neg (by omega), if_neg (by omega), if_neg (by omega),
        if_neg (by omega), h1]
      have h2 : (2 * (k : Nat) + 1) / 2 = k := by omega
      have h3 : (2 * (7 + (k : Nat)) + 1) % 2 = 1 := by omega
      rw [h2, h3, pow_one]
    rw [hbyte0, hbyte1]
    exact two_bytes hzone

/-- The other inodes of the block stay. -/
theorem stored_put_other {j' : Nat} (hj : j' ≠ j) (n₀ : MInode) :
    (getDInode (putDInode n j data) j' n₀).stored = (getDInode data j' n₀).stored := by
  have hword (t : Nat) (ht : t < 16) : Dev.word (putDInode n j data) (16 * j' + t) = Dev.word data (16 * j' + t) :=
    word_put_other ht hj
  have hbyte (t : Nat) (ht : t < 32) : putDInode n j data (32 * j' + t) = data (32 * j' + t) := by
    have h0 : (32 * j' + t) / 32 ≠ j := by omega
    simp only [putDInode, if_neg h0]
  ext1
  · exact hword 0 (by decide)
  · exact hword 1 (by decide)
  · exact congrArg₂ (fun a b => a + 2 ^ 16 * b) (hword 2 (by decide)) (hword 3 (by decide))
  · exact congrArg₂ (fun a b => a + 2 ^ 16 * b) (hword 4 (by decide)) (hword 5 (by decide))
  · exact congrArg UInt8.toNat (hbyte 12 (by decide))
  · exact hbyte 13 (by decide)
  · funext k
    show Dev.word _ (16 * j' + 7 + k) = Dev.word _ (16 * j' + 7 + k)
    rw [add_assoc]
    exact hword (7 + k) (by omega)

end
/-! ## Files and names -/

/-- `first` is the first data zone of a mounted device and `inodes` the number of its inodes, `mounted` the
device that is mounted on a file, and `cover` the file that a device is mounted on. -/
structure Files where
  file : Node → DiskInode
  block : Nat → Nat → Nat → UInt8
  first : Nat → Option Nat
  inodes : Nat → Nat
  mounted : Node → Option Nat
  cover : Nat → Option Node
  fits : ∀ n, (file n).Fits

/-- The process that looks a name up. -/
structure Caller where
  root : Node
  pwd : Node
  uid : Nat
  euid : Nat
  gid : Nat
  egid : Nat

namespace Files

variable (F : Files)

/-- Entry `k` of the index block `b`. -/
def index (dev b k : Nat) : Nat := if b = 0 then 0 else Dev.word (F.block dev b) k

/-- The block of a file with the number `k`. -/
def zone (d : Node) (k : Nat) : Nat :=
  if h : k < 7 then (F.file d).iZone ⟨k, by omega⟩
  else if k < 7 + 512 then F.index d.1 ((F.file d).iZone 7) (k - 7)
  else F.index d.1 (F.index d.1 ((F.file d).iZone 8) ((k - (7 + 512)) / 512)) ((k - (7 + 512)) % 512)

/-- The bytes of the block with entry `i` of a directory. -/
def entries (d : Node) (i : Nat) : Nat → UInt8 := F.block d.1 (F.zone d (i / 64))

def isEntry (d : Node) (name : Name) (i : Nat) : Bool := matchName name (F.entries d i) (i % 64)

/-- The number that the first of `n` entries gives for a name. -/
def search (d : Node) (name : Name) (n : Nat) : Option Nat :=
  ((List.range n).find? (F.isEntry d name)).map fun i => entryInode (F.entries d i) (i % 64)

def size (d : Node) : Nat := (F.file d).iSize / 16

/-- What `..` stands for. -/
def dotDot (root d : Node) (name : Name) : Node × Name :=
  if name = [46, 46] then
    if root = d then (d, [46])
    else if d.2 = 1 then ((F.cover d.1).getD d, name)
    else (d, name)
  else (d, name)

/-- The file with a name in a directory. -/
def look (root d : Node) (name : Name) : Option Node :=
  if name = [] then none
  else
    let (d', name) := F.dotDot root d (name.take nameLen)
    if (F.file d').iZone 0 = 0 then none else (F.search d' name (F.size d)).map fun nr => (d'.1, nr)

/-- From a file to what is mounted on it, in fewer than `fuel` steps. -/
def cross : Nat → Node → Option Node
  | 0, _ => none
  | fuel + 1, n =>
    match F.mounted n with
    | none => some n
    | some dev => cross fuel (dev, 1)

def permission (c : Caller) (n : Node) (mask : Nat) : Bool :=
  let d := F.file n
  let mode :=
    if c.euid = d.iUid then d.iMode / 2 ^ 6
    else if c.egid = d.iGid then d.iMode / 2 ^ 3
    else d.iMode
  if d.iNlinks = 0 then false else (mode &&& mask &&& 0o7) == mask || c.euid == 0

variable (fuel : Nat) (c : Caller)

/-- The directory that the names lead to. -/
def follow : List Name → Node → Option Node
  | names, d =>
    if !isDir (F.file d).iMode || !F.permission c d mayExec then none
    else
      match names with
      | [] => some d
      | name :: names => ((F.look c.root d name).bind (F.cross fuel)).bind (follow names)

/-- The directory that a path name leads to. -/
def lead (path : Name) : Option Node :=
  if path = [] then none
  else F.follow fuel c (components path).dropLast (if path.head? = some 47 then c.root else c.pwd)

/-- The file that a path name stands for. -/
def resolve (path : Name) : Option Node :=
  (F.lead fuel c path).bind fun d =>
    let basename := (components path).getLastD []
    if basename = [] then some d else (F.look c.root d basename).bind (F.cross fuel)

/-! ## What `fsck` makes sure of -/

/-- The number is that of an inode of a mounted device. -/
structure Valid (n : Node) : Prop where
  known : ∃ z, F.first n.1 = some z
  pos : 0 < n.2
  le : n.2 ≤ F.inodes n.1

structure Linked (n : Node) : Prop extends F.Valid n where
  links : (F.file n).iNlinks ≠ 0

structure Directory (d : Node) : Prop extends F.Linked d where
  dir : isDir (F.file d).iMode = true

/-- The zones of a file and its index blocks. -/
inductive Uses (d : Node) : Nat → Prop
  | direct (k : Fin 9) : Uses d ((F.file d).iZone k)
  | single {k : Nat} (hk : k < 512) : Uses d (F.index d.1 ((F.file d).iZone 7) k)
  | indirect {k : Nat} (hk : k < 512) : Uses d (F.index d.1 ((F.file d).iZone 8) k)
  | double {j k : Nat} (hj : j < 512) (hk : k < 512) :
      Uses d (F.index d.1 (F.index d.1 ((F.file d).iZone 8) j) k)

/-- Directories have no holes, their blocks are among the data zones, and their entries are for inodes with
links. The roots of mounted devices have links, and `..` is among the first entries of a directory that a device
is mounted on. -/
structure Whole : Prop where
  linked : ∀ d, F.Directory d → ∀ name nr, F.search d name (F.size d) = some nr → F.Linked (d.1, nr)
  dense : ∀ d, F.Directory d → ∀ k, 64 * k < F.size d → k < Dev.maxBlocks ∧ F.zone d k ≠ 0
  zones : ∀ d, F.Directory d → ∀ z, F.first d.1 = some z → ∀ b, F.Uses d b → b ≠ 0 → z ≤ b
  roots : ∀ n dev, F.mounted n = some dev → F.Linked (dev, 1)
  covers : ∀ dev m, F.cover dev = some m →
    F.Directory m ∧ ∃ i < 64, i < F.size m ∧ F.isEntry m [46, 46] i = true

variable {F} {d n n' : Node}

theorem zone_uses {k : Nat} (hk : k < Dev.maxBlocks) : F.Uses d (F.zone d k) := by
  unfold zone
  unfold Dev.maxBlocks at hk
  split
  · exact .direct _
  · split
    · exact .single (by omega)
    · exact .double (by omega) (Nat.mod_lt _ (by decide))

theorem cross_linked (hw : F.Whole) {fuel : Nat} (hn : F.Linked n) (h : F.cross fuel n = some n') : F.Linked n' := by
  induction fuel generalizing n with
  | zero => cases h
  | succ fuel ih =>
    unfold cross at h
    split at h
    · cases h
      exact hn
    · rename_i dev hdev
      exact ih (hw.roots n dev hdev) h

theorem directory_of_may {c : Caller} {mask : Nat} (hd : F.Valid d)
    (h : ¬ (!isDir (F.file d).iMode || !F.permission c d mask) = true) : F.Directory d := by
  simp only [Bool.or_eq_true, Bool.not_eq_true', not_or, Bool.not_eq_false] at h
  obtain ⟨hdir, hmay⟩ := h
  refine { hd with links := fun hzero => ?_, dir := hdir }
  unfold permission at hmay
  rw [if_pos hzero] at hmay
  cases hmay

/-! ## Looking up -/

theorem search_some {name : Name} {k nr : Nat} (h : F.search d name k = some nr) :
    ∃ j < k, F.isEntry d name j = true ∧ (∀ l < j, F.isEntry d name l = false) ∧
      nr = entryInode (F.entries d j) (j % 64) := by
  obtain ⟨j, hj, rfl⟩ := Option.map_eq_some_iff.mp h
  rw [List.range_eq_range', List.find?_range'_eq_some, List.mem_range'_1] at hj
  exact ⟨j, by omega, hj.1, fun l hl => by simpa using hj.2.2 l (Nat.zero_le l) hl, rfl⟩

/-- The search ends at the first entry for the name. -/
theorem search_eq {name : Name} {j k : Nat} (hj : j < k) (hmatch : F.isEntry d name j = true)
    (hbefore : ∀ l < j, F.isEntry d name l = false) :
    F.search d name k = some (entryInode (F.entries d j) (j % 64)) := by
  have hfind : (List.range k).find? (F.isEntry d name) = some j := by
    rw [List.range_eq_range', List.find?_range'_eq_some, List.mem_range'_1]
    exact ⟨hmatch, by omega, fun l _ hl => by simp [hbefore l hl]⟩
  rw [search, hfind]
  rfl

theorem dotDot_cases (root d : Node) (name : Name) : (F.dotDot root d name).1 = d ∨
    ∃ m, F.cover d.1 = some m ∧ F.dotDot root d name = (m, [46, 46]) := by
  unfold dotDot
  split
  · rename_i hname
    split
    · exact .inl rfl
    · split
      · cases hm : F.cover d.1 with
        | none => exact .inl rfl
        | some m => exact .inr ⟨m, rfl, by rw [hname]; rfl⟩
      · exact .inl rfl
  · exact .inl rfl

section

variable (hw : F.Whole) (hd : F.Directory d) (root : Node) (name : Name)

include hw hd

theorem dotDot_directory : F.Directory (F.dotDot root d name).1 := by
  rcases F.dotDot_cases root d name with h | ⟨m, hm, h⟩
  · rw [h]
    exact hd
  · rw [h]
    exact (hw.covers d.1 m hm).1

/-- The blocks that a search goes through are there. -/
theorem dotDot_zones {j : Nat} (hj : j < F.size d)
    (hbefore : ∀ l < j, F.isEntry (F.dotDot root d name).1 (F.dotDot root d name).2 l = false) :
    j / 64 < Dev.maxBlocks ∧ F.zone (F.dotDot root d name).1 (j / 64) ≠ 0 := by
  rcases F.dotDot_cases root d name with h | ⟨m, hm, h⟩
  · rw [h]
    exact hw.dense d hd (j / 64) (by omega)
  · rw [h] at hbefore ⊢
    obtain ⟨hmdir, e, he, hsize, hentry⟩ := hw.covers d.1 m hm
    have hje : j ≤ e := by
      by_contra hlt
      rw [hbefore e (by omega)] at hentry
      cases hentry
    exact hw.dense m hmdir (j / 64) (by omega)

theorem dotDot_linked {nr : Nat}
    (h : F.search (F.dotDot root d name).1 (F.dotDot root d name).2 (F.size d) = some nr) :
    F.Linked ((F.dotDot root d name).1.1, nr) := by
  rcases F.dotDot_cases root d name with hsame | ⟨m, hm, hup⟩
  · rw [hsame] at h ⊢
    exact hw.linked d hd _ nr h
  · rw [hup] at h ⊢
    obtain ⟨hmdir, e, he, hsize, hentry⟩ := hw.covers d.1 m hm
    obtain ⟨j, hj, hmatch, hbefore, rfl⟩ := search_some h
    have hje : j ≤ e := by
      by_contra hlt
      rw [hbefore e (by omega)] at hentry
      cases hentry
    exact hw.linked m hmdir _ _ (search_eq (by omega) hmatch hbefore)

theorem look_linked (h : F.look root d name = some n) : F.Linked n := by
  unfold look at h
  split at h
  · cases h
  · simp only at h
    split at h
    · cases h
    · obtain ⟨nr, hnr, rfl⟩ := Option.map_eq_some_iff.mp h
      exact dotDot_linked hw hd root _ hnr

end

theorem follow_directory (hw : F.Whole) {fuel : Nat} {c : Caller} {names : List Name} (hd : F.Valid d)
    (h : F.follow fuel c names d = some n) : F.Directory n := by
  induction names generalizing d with
  | nil =>
    unfold follow at h
    split at h
    · cases h
    · rename_i hmay
      cases h
      exact directory_of_may hd hmay
  | cons name names ih =>
    unfold follow at h
    split at h
    · cases h
    · rename_i hmay
      have hdir := directory_of_may hd hmay
      obtain ⟨n₁, hn₁, hrest⟩ := Option.bind_eq_some_iff.mp h
      obtain ⟨n₀, hn₀, hcross⟩ := Option.bind_eq_some_iff.mp hn₁
      exact ih (cross_linked hw (look_linked hw hdir c.root name hn₀) hcross).toValid hrest

section

variable (hw : F.Whole) {fuel : Nat} {c : Caller} {path : Name} (hroot : F.Valid c.root) (hpwd : F.Valid c.pwd)

include hw hroot hpwd

theorem lead_directory (h : F.lead fuel c path = some d) : F.Directory d := by
  unfold lead at h
  split at h
  · cases h
  · refine follow_directory hw ?_ h
    split
    · exact hroot
    · exact hpwd

theorem resolve_linked (h : F.resolve fuel c path = some n) : F.Linked n := by
  obtain ⟨d, hd, h⟩ := Option.bind_eq_some_iff.mp h
  have hdir := lead_directory hw hroot hpwd hd
  simp only at h
  split at h
  · cases h
    exact hdir.toLinked
  · obtain ⟨n₀, hn₀, hcross⟩ := Option.bind_eq_some_iff.mp h
    exact cross_linked hw (look_linked hw hdir c.root _ hn₀) hcross

end

end Files

end Linux011.Path
