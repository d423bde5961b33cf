import Linux011.Path.Slots

/-!
# Path names in a calm system

`find_entry`, `get_dir` and `namei` return, and find what the functions of the files find. The files are as
before.
-/

namespace Linux011.Path

open Linux011.Fs Linux011.Lib

variable {V : View} {i b k e z : Nat} {r : Nat → Nat} {q : Key → Nat} {s : State} {m : Machine} {d : Node}

/-- The process at the start, with its root and its directory in the slots `rs` and `ps`. -/
def View.caller (V : View) (rs ps : Nat) : Caller :=
  ⟨V.node rs, V.node ps, V.start.current.uid, V.start.current.euid, V.start.current.gid, V.start.current.egid⟩

namespace Stands

/-! ## Buffers -/

theorem of_backed {r' : Nat → Nat} {q' : Key → Nat} {s' : State} (h : Stands V r q s) (h' : Backed V r' q' s')
    (hin : s'.inode = s.inode) : Stands V r' q' s' :=
  ⟨h', fun i hi => by rw [hin]; exact h.unlocked i hi⟩

/-- The block is read, and nothing else changes. -/
theorem bread (h : Stands V r q m.state) (dev b : Nat) :
    Runs (Path.bread dev b) m fun got s =>
      got = true ∧ Stands V r (q + ref (dev, b)) s ∧ s.inode = m.state.inode :=
  (h.toBacked.bread dev b).mono fun _ _ ⟨hgot, hs, hin⟩ => ⟨hgot, h.of_backed hs hin, hin⟩

theorem brelse {dev : Nat} (h : Stands V r (q + ref (dev, b)) m.state) :
    Runs (Path.brelse dev b) m fun _ s => Stands V r q s ∧ s.inode = m.state.inode :=
  h.toBacked.brelse.mono fun _ _ ⟨hs, hin⟩ => ⟨h.of_backed hs hin, hin⟩

/-- A buffer that is held has the bytes of its block. -/
theorem bytes {dev : Nat} (h : Stands V r q s) (hq : q (dev, b) ≠ 0) (hz : V.files.first dev = some z)
    (hb : z ≤ b) : ((s.cache dev).head b).data = V.files.block dev b := by
  have hfirst := V.first dev
  rw [hz] at hfirst
  obtain ⟨k, hk, hkz⟩ := Option.map_eq_some_iff.mp hfirst.symm
  rw [h.bData_eq hq]
  exact h.data dev k b hk (hkz ▸ hb)

/-! ## Inodes -/

/-- The inode of a device in a slot is that of its file. -/
theorem stored_eq (h : Stands V r q s) (hi : i < nrInode) (hd : (s.inode i).node = d)
    (hz : ∃ z, V.files.first d.1 = some z) : (s.inode i).stored = V.files.file d := by
  obtain ⟨z, hz⟩ := hz
  have hfirst := V.first d.1
  rw [hz] at hfirst
  obtain ⟨k, hk, -⟩ := Option.map_eq_some_iff.mp hfirst.symm
  have hdev : (s.inode i).iDev = d.1 := congrArg Prod.fst hd
  rw [(h.slot i hi).copy k (hdev ▸ hk), hd]

theorem iZone_eq (h : Stands V r q s) (hi : i < nrInode) (hd : (s.inode i).node = d)
    (hz : ∃ z, V.files.first d.1 = some z) (k : Fin 9) : (s.inode i).iZone k = (V.files.file d).iZone k :=
  congrFun (congrArg DiskInode.iZone (h.stored_eq hi hd hz)) k

/-- A step of `bmap` at an index block. -/
theorem entryZone (h : Stands V r q m.state) {dev : Nat} (hz : V.files.first dev = some z) (hb : z ≤ b)
    (hpos : b ≠ 0) :
    Runs (Path.entryZone false dev b k) m fun z' s =>
      z' = V.files.index dev b k ∧ Stands V r q s ∧ s.inode = m.state.inode := by
  unfold Path.entryZone
  refine (h.bread dev b).bind fun got m₁ hret => ?_
  obtain ⟨hgot, h₁, hin₁⟩ := hret
  subst hgot
  rw [if_pos rfl]
  refine runs_look ?_
  rw [h₁.bytes (by simp) hz hb, if_neg (by simp)]
  refine h₁.brelse.bind fun _ m₂ hret => ?_
  obtain ⟨h₂, hin₂⟩ := hret
  refine ⟨?_, h₂, hin₂.trans hin₁⟩
  rw [Files.index, if_neg hpos]

/-- `bmap` finds the block of the file. -/
theorem bmap (h : Stands V r q m.state) (hi : i < nrInode) (hd : (m.state.inode i).node = d)
    (hz : V.files.first d.1 = some z) (huses : ∀ b, V.files.Uses d b → b ≠ 0 → z ≤ b) (hk : k < Dev.maxBlocks) :
    Runs (Path.bmap i k) m fun b s => b = V.files.zone d k ∧ Stands V r q s ∧ s.inode = m.state.inode := by
  have hdev : (m.state.inode i).iDev = d.1 := congrArg Prod.fst hd
  have hzone (k : Fin 9) := h.iZone_eq hi hd ⟨z, hz⟩ k
  have hstep (j : Nat) {β : Type} {f : Nat → Call β} {R : β → State → Prop}
      (hf : Runs (f ((m.state.inode i).iZone j)) m R) : Runs (inodeZone false i j >>= f) m R := by
    have hrun : inodeZone false i j m = .ok ((m.state.inode i).iZone j) m := by
      unfold inodeZone
      rfl
    exact runs_ok hrun hf
  have hindex (b k : Nat) (hb : b = 0) : V.files.index d.1 b k = 0 := if_pos hb
  unfold Path.bmap bmapCreate
  refine runs_look ?_
  rw [if_neg (by omega), hdev]
  unfold Files.zone
  by_cases hk7 : k < 7
  · rw [if_pos hk7, dif_pos hk7]
    exact ⟨hzone ⟨k, by omega⟩, h, rfl⟩
  · rw [if_neg hk7, dif_neg hk7]
    by_cases hk8 : k < 7 + 512
    · have h7 : (m.state.inode i).iZone 7 = (V.files.file d).iZone 7 := hzone 7
      rw [if_pos hk8, if_pos hk8]
      refine hstep 7 ?_
      rw [h7]
      split
      · rename_i hzero
        exact ⟨(hindex _ _ hzero).symm, h, rfl⟩
      · rename_i hpos
        exact h.entryZone hz (huses _ (.direct 7) hpos) hpos
    · have h8 : (m.state.inode i).iZone 8 = (V.files.file d).iZone 8 := hzone 8
      rw [if_neg hk8, if_neg hk8]
      refine hstep 8 ?_
      rw [h8]
      split
      · rename_i hzero
        refine ⟨?_, h, rfl⟩
        rw [hindex _ _ hzero, hindex _ _ rfl]
      · rename_i hpos
        have hj : (k - (7 + 512)) / 512 < 512 := by
          unfold Dev.maxBlocks at hk
          omega
        refine (h.entryZone hz (huses _ (.direct 8) hpos) hpos).bind fun b m₁ hret => ?_
        obtain ⟨hb, h₁, hin₁⟩ := hret
        subst hb
        split
        · rename_i hzero
          exact ⟨(hindex _ _ hzero).symm, h₁, hin₁⟩
        · rename_i hbpos
          exact (h₁.entryZone hz (huses _ (.indirect hj) hbpos) hbpos).mono fun _ _ hret =>
            ⟨hret.1, hret.2.1, hret.2.2.trans hin₁⟩

/-! ## `find_entry` -/

/-- The head of the loop gets to the block with entry `e`. -/
theorem findBlock (h : Stands V r (q + ref (d.1, b)) m.state) (hi : i < nrInode) (hd : (m.state.inode i).node = d)
    (hz : V.files.first d.1 = some z) (huses : ∀ b, V.files.Uses d b → b ≠ 0 → z ≤ b)
    (hhere : k < 64 → k = e % 64 ∧ b = V.files.zone d (e / 64)) (hnext : 64 ≤ k → e % 64 = 0)
    (hzone : e / 64 < Dev.maxBlocks ∧ V.files.zone d (e / 64) ≠ 0) (left : Nat) :
    Runs (Path.findBlock i d.1 e left b k) m fun o s => o = some (V.files.zone d (e / 64), e % 64) ∧
      Stands V r (q + ref (d.1, V.files.zone d (e / 64))) s ∧ s.inode = m.state.inode := by
  unfold Path.findBlock
  by_cases hk : k < 64
  · obtain ⟨hke, hb⟩ := hhere hk
    rw [if_pos hk]
    refine ⟨by rw [hke, hb], ?_, rfl⟩
    rw [← hb]
    exact h
  · rw [if_neg hk, hnext (by omega)]
    refine h.brelse.bind fun _ m₁ hret => ?_
    obtain ⟨h₁, hin₁⟩ := hret
    refine (h₁.bmap hi (by rw [hin₁, hd]) hz huses hzone.1).bind fun b' m₂ hret => ?_
    obtain ⟨hb', h₂, hin₂⟩ := hret
    subst hb'
    refine runs_mark fun L => ?_
    unfold breadMapped
    rw [if_neg hzone.2]
    have h₂' : Stands V r q ({ m₂ with log := L } : Machine).state := h₂
    refine (h₂'.bread d.1 _).bind fun got m₃ hret => ?_
    obtain ⟨hgot, h₃, hin₃⟩ := hret
    rw [hgot, if_pos rfl]
    exact ⟨rfl, h₃, hin₃.trans (hin₂.trans hin₁)⟩

/-- What a search in a directory ends with, when `j` is the entry that there is. -/
def Found (V : View) (r : Nat → Nat) (q : Key → Nat) (d : Node) (f : Nat → MInode) (j : Option Nat)
    (o : Option DirEntry) (s : State) : Prop :=
  s.inode = f ∧
    match j with
    | none => o = none ∧ Stands V r q s
    | some j => o = some ⟨d.1, V.files.zone d (j / 64), j % 64⟩ ∧
      Stands V r (q + ref (d.1, V.files.zone d (j / 64))) s

theorem findLoop (hi : i < nrInode) (hz : V.files.first d.1 = some z)
    (huses : ∀ b, V.files.Uses d b → b ≠ 0 → z ≤ b) (name : Name) (left : Nat) {e b k : Nat} {m : Machine}
    (h : Stands V r (q + ref (d.1, b)) m.state) (hd : (m.state.inode i).node = d) (hk : k ≤ 64)
    (hhere : k < 64 → k = e % 64 ∧ b = V.files.zone d (e / 64)) (hnext : 64 ≤ k → e % 64 = 0)
    (hzones : ∀ j, e ≤ j → j < e + left → (∀ l, e ≤ l → l < j → V.files.isEntry d name l = false) →
      j / 64 < Dev.maxBlocks ∧ V.files.zone d (j / 64) ≠ 0) :
    Runs (Path.findLoop i d.1 name left e b k) m
      (Found V r q d m.state.inode ((List.range' e left).find? (V.files.isEntry d name))) := by
  induction left generalizing e b k m with
  | zero =>
    exact h.brelse.bind fun _ m₁ hret => ⟨hret.2, rfl, hret.1⟩
  | succ left ih =>
    have hzone := hzones e (Nat.le_refl e) (by omega) fun l hl hlt => absurd hlt (Nat.not_lt_of_le hl)
    unfold Path.findLoop
    refine (h.findBlock hi hd hz huses hhere hnext hzone (left + 1)).bind fun o m₁ hret => ?_
    obtain ⟨ho, h₁, hin₁⟩ := hret
    subst ho
    refine runs_look ?_
    have hbytes : ((m₁.state.cache d.1).head (V.files.zone d (e / 64))).data = V.files.entries d e :=
      h₁.bytes (by simp) hz (huses _ (Files.zone_uses hzone.1) hzone.2)
    rw [hbytes, List.range'_succ]
    by_cases hmatch : V.files.isEntry d name e = true
    · have hcond : matchName name (V.files.entries d e) (e % 64) = true := hmatch
      rw [if_pos hcond, List.find?_cons_of_pos hmatch]
      exact ⟨hin₁, rfl, h₁⟩
    · have hcond : ¬ matchName name (V.files.entries d e) (e % 64) = true := hmatch
      rw [if_neg hcond, List.find?_cons_of_neg hmatch, ← hin₁]
      have hlt := Nat.mod_lt e (show 0 < 64 by decide)
      refine ih h₁ (by rw [hin₁, hd]) (by omega) (fun hk' => ⟨by omega, ?_⟩) (fun hk' => by omega)
        fun j hj hjlt hbefore => hzones j (by omega) (by omega) fun l hl hlj => ?_
      · have hdiv : (e + 1) / 64 = e / 64 := by omega
        rw [hdiv]
      · rcases Nat.eq_or_lt_of_le hl with rfl | hlt'
        · simpa using hmatch
        · exact hbefore l hlt' hlj

/-- The root of the process is in slot `rs`. -/
structure Rooted (V : View) (rs : Nat) : Prop where
  root : V.start.current.root = some rs
  lt : rs < nrInode
  base : V.base rs ≠ 0

theorem super_of_first {dev : Nat} (hz : ∃ z, V.files.first dev = some z) : ∃ k, V.start.getSuper dev = some k := by
  obtain ⟨z, hz⟩ := hz
  have hfirst := V.first dev
  rw [hz] at hfirst
  obtain ⟨k, hk, -⟩ := Option.map_eq_some_iff.mp hfirst.symm
  exact ⟨k, hk⟩

theorem dev_ne_zero {dev : Nat} (hz : ∃ z, V.files.first dev = some z) : dev ≠ 0 := by
  obtain ⟨k, hk⟩ := super_of_first hz
  intro hzero
  rw [hzero] at hk
  cases hk

/-- The reference to a file with links is let go. -/
theorem put (h : Stands V (r + ref i) q m.state) (hi : i < nrInode) (hd : (m.state.inode i).node = d)
    (hz : ∃ z, V.files.first d.1 = some z) (hlinks : (V.files.file d).iNlinks ≠ 0 ∨ V.base i + r i ≠ 0) :
    Runs (Path.iput i) m fun _ => Released V r q m := by
  have hdev : (m.state.inode i).iDev ≠ 0 := by
    rw [show (m.state.inode i).iDev = d.1 from congrArg Prod.fst hd]
    exact dev_ne_zero hz
  have hnlinks : (m.state.inode i).iNlinks = (V.files.file d).iNlinks :=
    congrArg DiskInode.iNlinks (h.stored_eq hi hd hz)
  refine h.iput hi ?_ (.inr (hnlinks ▸ hlinks))
  by_contra hp
  exact hdev ((h.slot i hi).pipe (by simpa using hp))

theorem root_iff {rs : Nat} (h : Stands V r q s) (hroot : Rooted V rs) (hi : i < nrInode)
    (hd : (s.inode i).node = d) (hz : ∃ z, V.files.first d.1 = some z) :
    s.current.root = some i ↔ V.node rs = d := by
  have hpin := (h.slot rs hroot.lt).pinned hroot.base
  rw [h.current, hroot.root, Option.some.injEq]
  constructor
  · rintro rfl
    rw [← hpin, hd]
  · intro heq
    have hsame : (s.inode rs).node = (s.inode i).node := by rw [hpin, heq, hd]
    refine h.unique rs hroot.lt i hi ?_ hsame
    have hdev : (s.inode rs).iDev = d.1 := (congrArg Prod.fst hsame).trans (congrArg Prod.fst hd)
    rw [hdev]
    exact dev_ne_zero hz

theorem dotDot {rs : Nat} (hw : V.files.Whole) (hroot : Rooted V rs) (h : Stands V (r + ref i) q m.state)
    (hi : i < nrInode) (hd : (m.state.inode i).node = d) (hdir : V.files.Directory d) (name : Name) :
    Runs (Path.dotDot i name) m fun p s => p.2 = (V.files.dotDot (V.node rs) d name).2 ∧ p.1 < nrInode ∧
      Stands V (r + ref p.1) q s ∧ (s.inode p.1).node = (V.files.dotDot (V.node rs) d name).1 := by
  unfold Path.dotDot Files.dotDot
  by_cases hname : name = [46, 46]
  · rw [if_pos hname, if_pos hname]
    refine runs_state ?_
    by_cases heq : V.node rs = d
    · rw [if_pos ((h.root_iff hroot hi hd hdir.known).mpr heq), if_pos heq]
      exact ⟨rfl, hi, h, hd⟩
    · rw [if_neg fun hr => heq ((h.root_iff hroot hi hd hdir.known).mp hr), if_neg heq]
      have hnum : (m.state.inode i).iNum = d.2 := congrArg Prod.snd hd
      have hdev : (m.state.inode i).iDev = d.1 := congrArg Prod.fst hd
      rw [hnum, hdev]
      by_cases hone : d.2 = 1
      · have hone' : d.2 = rootIno.toNat := hone
        rw [if_pos hone, if_pos hone']
        obtain ⟨k, hk⟩ := super_of_first hdir.known
        have hcover := V.cover d.1 k hk
        rw [h.getSuper, hk]
        simp only [h.superBlock]
        cases hm : (V.start.superBlock k).sImount with
        | none =>
          rw [hm] at hcover
          rw [hcover]
          exact ⟨rfl, hi, h, hd⟩
        | some mm =>
          rw [hm] at hcover
          rw [hcover]
          obtain ⟨hmm, hpoint⟩ := V.imount d.1 k mm hk hm
          have hbase := V.pinned mm hpoint
          obtain ⟨hmdir, -⟩ := hw.covers d.1 (V.node mm) hcover
          refine (h.put hi hd hdir.known (.inl hdir.links)).bind fun _ m₁ hret => runs_setInode ?_
          obtain ⟨h₁, _⟩ := hret
          have hpin := (h₁.slot mm hmm).pinned hbase
          have hmdev : (m₁.state.inode mm).iDev = (V.node mm).1 := congrArg Prod.fst hpin
          have h₂ := h₁.addCount (i := mm) (hmdev ▸ super_of_first hmdir.known)
          exact ⟨rfl, hmm, h₂, (h₂.slot mm hmm).pinned hbase⟩
      · have hone' : ¬ d.2 = rootIno.toNat := hone
        rw [if_neg hone, if_neg hone']
        exact ⟨rfl, hi, h, hd⟩
  · rw [if_neg hname, if_neg hname]
    exact ⟨rfl, hi, h, hd⟩

/-- What `find_entry` ends with: the directory is in slot `p.1`, and what it has for the name is in a buffer. -/
def Looked (V : View) (r : Nat → Nat) (q : Key → Nat) (root d : Node) (name : Name) (p : Nat × Option DirEntry)
    (s : State) : Prop :=
  p.1 < nrInode ∧ V.files.Directory (s.inode p.1).node ∧
    match p.2 with
    | none => V.files.look root d name = none ∧ Stands V (r + ref p.1) q s
    | some de => ∃ nr < 2 ^ 16, V.files.look root d name = some ((s.inode p.1).iDev, nr) ∧
      entryInode (((s.cache de.dev).head de.block).data) de.k = nr ∧
      Stands V (r + ref p.1) (q + ref (de.dev, de.block)) s

theorem entryInode_lt (data : Nat → UInt8) (k : Nat) : entryInode data k < 2 ^ 16 := by
  have hlow := (data (2 * (8 * k))).toNat_lt
  have hhigh := (data (2 * (8 * k) + 1)).toNat_lt
  unfold entryInode Dev.word
  omega

theorem size_eq (h : Stands V r q s) (hi : i < nrInode) (hd : (s.inode i).node = d)
    (hz : ∃ z, V.files.first d.1 = some z) : (s.inode i).iSize / 16 = V.files.size d :=
  congrArg (fun n : DiskInode => n.iSize / 16) (h.stored_eq hi hd hz)

theorem findEntry {rs : Nat} (hw : V.files.Whole) (hroot : Rooted V rs) (h : Stands V (r + ref i) q m.state)
    (hi : i < nrInode) (hd : (m.state.inode i).node = d) (hdir : V.files.Directory d) (name : Name) :
    Runs (Path.findEntry i name) m (Looked V r q (V.node rs) d name) := by
  unfold Path.findEntry
  refine runs_look ?_
  rw [h.size_eq hi hd hdir.known]
  by_cases hname : name = []
  · have htake : name.take nameLen = [] := by rw [hname]; rfl
    rw [if_pos htake]
    refine ⟨hi, hd ▸ hdir, ?_, h⟩
    rw [Files.look, if_pos hname]
  · have htake : ¬ name.take nameLen = [] := by
      rw [List.take_eq_nil_iff]
      rintro (hlen | hnil)
      · cases hlen
      · exact hname hnil
    rw [if_neg htake]
    have hdirs := Files.dotDot_directory hw hdir (V.node rs) (name.take nameLen)
    have hzones := fun {j : Nat} => Files.dotDot_zones hw hdir (V.node rs) (name.take nameLen) (j := j)
    have hlook : V.files.look (V.node rs) d name =
        (if (V.files.file (V.files.dotDot (V.node rs) d (name.take nameLen)).1).iZone 0 = 0 then none
        else (V.files.search (V.files.dotDot (V.node rs) d (name.take nameLen)).1
          (V.files.dotDot (V.node rs) d (name.take nameLen)).2 (V.files.size d)).map fun nr =>
            ((V.files.dotDot (V.node rs) d (name.take nameLen)).1.1, nr)) := by
      rw [Files.look, if_neg hname]
    refine (h.dotDot hw hroot hi hd hdir _).bind fun p m₁ hret => ?_
    obtain ⟨hp, hj, h₁, hnode⟩ := hret
    generalize V.files.dotDot (V.node rs) d (name.take nameLen) = up at *
    obtain ⟨d', name₁⟩ := up
    obtain ⟨j, name'⟩ := p
    simp only at hp hj h₁ hnode hdirs hzones hlook
    subst hp
    obtain ⟨z, hz⟩ := hdirs.known
    have huses := hw.zones d' hdirs z hz
    have hz0 : (m₁.state.inode j).iZone 0 = (V.files.file d').iZone 0 := h₁.iZone_eq hj hnode ⟨z, hz⟩ 0
    have hdev : (m₁.state.inode j).iDev = d'.1 := congrArg Prod.fst hnode
    refine runs_look ?_
    rw [hz0, hdev]
    by_cases hzero : (V.files.file d').iZone 0 = 0
    · rw [if_pos hzero] at hlook
      rw [if_pos hzero]
      exact ⟨hj, hnode ▸ hdirs, hlook, h₁⟩
    · rw [if_neg hzero] at hlook
      rw [if_neg hzero]
      refine (h₁.bread d'.1 _).bind fun got m₂ hret => ?_
      obtain ⟨hgot, h₂, hin₂⟩ := hret
      rw [hgot, if_pos rfl]
      have hnode₂ : (m₂.state.inode j).node = d' := by rw [hin₂, hnode]
      have hfind := findLoop hj hz huses name' (V.files.size d) (e := 0) (k := 0) h₂ hnode₂ (Nat.zero_le _)
        (fun _ => ⟨rfl, rfl⟩) (fun hk => absurd hk (by decide))
        fun l _ hl hbefore => hzones (by omega) fun l' hl' => hbefore l' (Nat.zero_le _) hl'
      rw [← List.range_eq_range'] at hfind
      refine hfind.bind fun o m₃ hret => ?_
      obtain ⟨hin₃, ho⟩ := hret
      have hdir₃ : V.files.Directory (m₃.state.inode j).node := by
        rw [hin₃, hnode₂]
        exact hdirs
      have hdev₃ : (m₃.state.inode j).iDev = d'.1 := by rw [hin₃, hin₂, hdev]
      cases hres : (List.range (V.files.size d)).find? (V.files.isEntry d' name') with
      | none =>
        rw [hres] at ho
        obtain ⟨rfl, h₃⟩ := ho
        have hsearch : V.files.search d' name' (V.files.size d) = none := by
          rw [Files.search, hres]
          rfl
        rw [hsearch] at hlook
        exact ⟨hj, hdir₃, hlook, h₃⟩
      | some l =>
        rw [hres] at ho
        obtain ⟨rfl, h₃⟩ := ho
        have hsearch : V.files.search d' name' (V.files.size d) =
            some (entryInode (V.files.entries d' l) (l % 64)) := by
          rw [Files.search, hres]
          rfl
        have hfirst := hres
        rw [List.range_eq_range', List.find?_range'_eq_some, List.mem_range'_1] at hfirst
        obtain ⟨hmax, hpos⟩ := hzones (j := l) (by omega) fun l' hl' => by
          simpa using hfirst.2.2 l' (Nat.zero_le _) hl'
        rw [hsearch] at hlook
        refine ⟨hj, hdir₃, entryInode (V.files.entries d' l) (l % 64), entryInode_lt _ _, ?_, ?_, h₃⟩
        · rw [hlook, hdev₃]
          rfl
        · exact congrArg (entryInode · (l % 64))
            (h₃.bytes (by simp) hz (huses _ (Files.zone_uses hmax) hpos))

/-! ## `get_dir` -/

theorem permission_eq (h : Stands V r q s) (hi : i < nrInode) (hd : (s.inode i).node = d)
    (hz : ∃ z, V.files.first d.1 = some z) (rs ps mask : Nat) :
    s.permission i mask = V.files.permission (V.caller rs ps) d mask := by
  have hstored := h.stored_eq hi hd hz
  have hmode : (s.inode i).iMode = (V.files.file d).iMode := congrArg DiskInode.iMode hstored
  have huid : (s.inode i).iUid = (V.files.file d).iUid := congrArg DiskInode.iUid hstored
  have hgid : (s.inode i).iGid = (V.files.file d).iGid := congrArg DiskInode.iGid hstored
  have hlinks : (s.inode i).iNlinks = (V.files.file d).iNlinks := congrArg DiskInode.iNlinks hstored
  have hdev : (s.inode i).iDev ≠ 0 := by
    rw [show (s.inode i).iDev = d.1 from congrArg Prod.fst hd]
    exact dev_ne_zero hz
  simp only [State.permission, Files.permission, State.suser, View.caller, hmode, huid, hgid, hlinks, h.current,
    ne_eq, hdev, not_false_eq_true, true_and]
  rfl

theorem isDir_eq (h : Stands V r q s) (hi : i < nrInode) (hd : (s.inode i).node = d)
    (hz : ∃ z, V.files.first d.1 = some z) : (s.inode i).iMode = (V.files.file d).iMode :=
  congrArg DiskInode.iMode (h.stored_eq hi hd hz)

/-- A call ends with the inode of the file, if there is one. -/
def Result (V : View) (r : Nat → Nat) (q : Key → Nat) (n : Option Node) (o : Option Nat) (s : State) : Prop :=
  match n with
  | none => o = none ∧ Stands V r q s
  | some n => Gets V r q n o s

section

variable {rs : Nat} (ps : Nat) {fuel : Nat} (hw : V.files.Whole) (hroot : Rooted V rs)
  (hfree : ∃ e < nrInode, V.base e + r e = 0) (hmounts : ∀ n, ∃ n', V.files.cross fuel n = some n')

include hw hfree hmounts

/-- The file with a name in a directory is got, and the directory is let go. -/
theorem enter {β : Type} {k : Option Nat → Call β} {R : β → State → Prop} {name : Name}
    (hdir : V.files.Directory d) {p : Nat × Option DirEntry} (h : Looked V r q (V.node rs) d name p m.state)
    (hk : ∀ o m', Result V r q ((V.files.look (V.node rs) d name).bind (V.files.cross fuel)) o m'.state →
      Runs (k o) m' R) :
    Runs (match p.2 with
      | none => do
        Path.iput p.1
        k none
      | some de => do
        let inr := entryInode (← bData de.dev de.block) de.k
        let idev := (← inode p.1).iDev
        Path.brelse de.dev de.block
        Path.iput p.1
        let o ← Path.iget fuel idev inr
        k o) m R := by
  obtain ⟨j, o⟩ := p
  obtain ⟨hj, hjdir, h⟩ := h
  cases o with
  | none =>
    obtain ⟨hlook, h⟩ := h
    rw [hlook] at hk
    exact (h.put hj rfl hjdir.known (.inl hjdir.links)).bind fun _ m₁ hret => hk none m₁ ⟨rfl, hret.1⟩
  | some de =>
    obtain ⟨nr, hnr, hlook, hentry, h⟩ := h
    have hlinked := Files.look_linked hw hdir (V.node rs) name hlook
    obtain ⟨n', hn'⟩ := hmounts ((m.state.inode j).iDev, nr)
    rw [hlook, Option.bind_some, hn'] at hk
    refine runs_look (runs_look ?_)
    simp only [hentry]
    refine h.brelse.bind fun _ m₁ hret => ?_
    obtain ⟨h₁, hin₁⟩ := hret
    have hnode₁ : (m₁.state.inode j).node = (m.state.inode j).node := by rw [hin₁]
    refine (h₁.put hj hnode₁ hjdir.known (.inl hjdir.links)).bind fun _ m₂ hret => ?_
    obtain ⟨h₂, _⟩ := hret
    refine (h₂.iget hfree (n := ((m.state.inode j).iDev, nr)) hnr (super_of_first hlinked.known) hn').bind ?_
    exact fun o m₃ ho => hk o m₃ ho

include hroot

omit hw hroot hfree hmounts in
/-- The check at the head of the loop of `get_dir`: it is a directory that may be searched. -/
theorem checked {x : Call (Option Nat)} {n : Option Node} (h : Stands V (r + ref i) q m.state) (hi : i < nrInode)
    (hd : (m.state.inode i).node = d) (hvalid : V.files.Valid d)
    (hlinks : (V.files.file d).iNlinks ≠ 0 ∨ V.base i + r i ≠ 0)
    (hx : V.files.Directory d → Runs x m (Result V r q n)) :
    Runs (do
      let s ← look id
      if !isDir (s.inode i).iMode || !s.permission i mayExec then do
        Path.iput i
        return none
      else x) m
      (Result V r q
        (if !isDir (V.files.file d).iMode || !V.files.permission (V.caller rs ps) d mayExec then none else n)) := by
  refine runs_state ?_
  rw [h.isDir_eq hi hd hvalid.known, h.permission_eq hi hd hvalid.known rs ps]
  by_cases hmay : (!isDir (V.files.file d).iMode || !V.files.permission (V.caller rs ps) d mayExec) = true
  · rw [if_pos hmay, if_pos hmay]
    exact (h.put hi hd hvalid.known hlinks).bind fun _ m₁ hret => ⟨rfl, hret.1⟩
  · rw [if_neg hmay, if_neg hmay]
    exact hx (Files.directory_of_may hvalid hmay)

/-- The loop of `get_dir` follows the names. -/
theorem walk (names : List Name) {i : Nat} {d : Node} {m : Machine} (h : Stands V (r + ref i) q m.state)
    (hi : i < nrInode) (hd : (m.state.inode i).node = d) (hvalid : V.files.Valid d)
    (hlinks : (V.files.file d).iNlinks ≠ 0 ∨ V.base i + r i ≠ 0) :
    Runs (Path.walk fuel names i) m (Result V r q (V.files.follow fuel (V.caller rs ps) names d)) := by
  induction names generalizing i d m with
  | nil =>
    unfold Path.walk Files.follow
    exact h.checked ps hi hd hvalid hlinks fun _ => ⟨i, hi, rfl, h, hd⟩
  | cons name names ih =>
    unfold Path.walk Files.follow
    refine h.checked (n := ((V.files.look (V.node rs) d name).bind (V.files.cross fuel)).bind
      (V.files.follow fuel (V.caller rs ps) names)) ps hi hd hvalid hlinks fun hdir => ?_
    refine (h.findEntry hw hroot hi hd hdir name).bind fun p m₁ hp => ?_
    obtain ⟨j, o⟩ := p
    refine enter (k := fun o => match o with
      | none => return none
      | some i => Path.walk fuel names i) hw hfree hmounts hdir hp fun o m₂ ho => ?_
    cases hn : (V.files.look (V.node rs) d name).bind (V.files.cross fuel) with
    | none =>
      rw [hn] at ho
      rw [Option.bind_none]
      obtain ⟨rfl, h₂⟩ := ho
      exact ⟨rfl, h₂⟩
    | some n =>
      rw [hn] at ho
      obtain ⟨i', hi', rfl, h₂, hd'⟩ := ho
      obtain ⟨n₀, hn₀, hcross⟩ := Option.bind_eq_some_iff.mp hn
      have hlinked := Files.cross_linked hw (Files.look_linked hw hdir (V.node rs) name hn₀) hcross
      rw [Option.bind_some]
      exact ih h₂ hi' hd' hlinked.toValid (.inl hlinked.links)

end

/-! ## `namei` -/

/-- A file that is there gets dirty. -/
theorem touch (h : Stands V r q m.state) (hi : i < nrInode) (hd : (m.state.inode i).node = d)
    (hvalid : V.files.Valid d) (now : Nat) :
    Stands V r q (m.setInode i fun n => { n with iAtime := now, iDirt := true }).state := by
  obtain ⟨k, hk⟩ := super_of_first hvalid.known
  have hdev : (m.state.inode i).iDev = d.1 := congrArg Prod.fst hd
  have hnum : (m.state.inode i).iNum = d.2 := congrArg Prod.snd hd
  refine h.setInode (fun _ => ?_) (fun _ _ => rfl) rfl (fun hc => by cases hc) rfl
  have hslot := h.slot i hi
  refine { hslot with dirty := fun _ => ⟨k, hdev ▸ hk, ?_⟩ }
  show inodeBlock _ (m.state.inode i).iNum < _
  rw [hnum]
  exact V.inodes d.1 k hk d.2 hvalid.pos hvalid.le

end Stands

/-- The root and the directory of the process are files in the slots `rs` and `ps`. -/
structure Placed (V : View) (rs ps : Nat) : Prop extends Stands.Rooted V rs where
  pwd : V.start.current.pwd = some ps
  pwd_lt : ps < nrInode
  pwd_base : V.base ps ≠ 0
  root_valid : V.files.Valid (V.node rs)
  pwd_valid : V.files.Valid (V.node ps)

namespace Stands

section

variable {rs ps fuel : Nat} (hw : V.files.Whole) (hplace : Placed V rs ps)
  (hfree : ∃ e < nrInode, V.base e + r e = 0) (hmounts : ∀ n, ∃ n', V.files.cross fuel n = some n')

include hw hplace hfree hmounts

theorem getDir (h : Stands V r q m.state) (path : Name) :
    Runs (Path.getDir fuel path) m (Result V r q (V.files.lead fuel (V.caller rs ps) path)) := by
  unfold Path.getDir Files.lead
  refine runs_state ?_
  rw [h.current, hplace.root, hplace.pwd]
  have hrs := (h.slot rs hplace.lt).count
  have hps := (h.slot ps hplace.pwd_lt).count
  have hrbase := hplace.base
  have hpbase := hplace.pwd_base
  simp only
  rw [if_neg (by omega), if_neg (by omega)]
  by_cases hpath : path = []
  · rw [if_pos hpath, if_pos hpath]
    exact ⟨rfl, h⟩
  · rw [if_neg hpath, if_neg hpath]
    refine runs_setInode ?_
    have hstart (i : Nat) (hi : i < nrInode) (hbase : V.base i ≠ 0) (hvalid : V.files.Valid (V.node i)) :
        Runs (Path.walk fuel (components path).dropLast i)
          (m.setInode i fun n => { n with iCount := n.iCount + 1 })
          (Result V r q (V.files.follow fuel (V.caller rs ps) (components path).dropLast (V.node i))) := by
      have hpin := (h.slot i hi).pinned hbase
      have hdev : (m.state.inode i).iDev = (V.node i).1 := congrArg Prod.fst hpin
      have h₁ := h.addCount (i := i) (hdev ▸ super_of_first hvalid.known)
      exact walk ps hw hplace.toRooted hfree hmounts _ h₁ hi ((h₁.slot i hi).pinned hbase) hvalid
        (.inr (by omega))
    split
    · exact hstart rs hplace.lt hrbase hplace.root_valid
    · exact hstart ps hplace.pwd_lt hpbase hplace.pwd_valid

theorem dirNamei (h : Stands V r q m.state) (path : Name) :
    Runs (Path.dirNamei fuel path) m fun o s => ∃ i, o = i.map (fun dir => (dir, (components path).getLastD [])) ∧
      Result V r q (V.files.lead fuel (V.caller rs ps) path) i s := by
  refine (h.getDir hw hplace hfree hmounts path).bind fun o m₁ ho => ?_
  cases o with
  | none => exact ⟨none, rfl, ho⟩
  | some i => exact ⟨some i, rfl, ho⟩

/-- `namei` gets the inode of the file that the path name stands for. -/
theorem namei (h : Stands V r q m.state) (path : Name) :
    Runs (Path.namei fuel path) m (Result V r q (V.files.resolve fuel (V.caller rs ps) path)) := by
  unfold Path.namei Files.resolve
  refine (h.dirNamei hw hplace hfree hmounts path).bind fun o m₁ hret => ?_
  obtain ⟨o', ho', ho⟩ := hret
  cases hd : V.files.lead fuel (V.caller rs ps) path with
  | none =>
    rw [hd] at ho
    obtain ⟨rfl, h₁⟩ := ho
    subst ho'
    exact ⟨rfl, h₁⟩
  | some d =>
    rw [hd] at ho
    obtain ⟨i, hi, rfl, h₁, hid⟩ := ho
    subst ho'
    have hdir := Files.lead_directory hw hplace.root_valid hplace.pwd_valid hd
    rw [Option.bind_some]
    simp only [Option.map_some]
    by_cases hlast : (components path).getLastD [] = []
    · rw [if_pos hlast, if_pos hlast]
      exact ⟨i, hi, rfl, h₁, hid⟩
    · rw [if_neg hlast, if_neg hlast]
      refine (h₁.findEntry hw hplace.toRooted hi hid hdir _).bind fun p m₂ hp => ?_
      obtain ⟨j, e⟩ := p
      refine enter (k := fun o => match o with
        | none => return none
        | some i => do
          let now ← look fun s => s.now
          Path.setInode i fun n => { n with iAtime := now, iDirt := true }
          return some i) hw hfree hmounts hdir hp fun o m₃ ho => ?_
      cases hn : (V.files.look (V.node rs) d ((components path).getLastD [])).bind (V.files.cross fuel) with
      | none =>
        rw [hn] at ho
        obtain ⟨rfl, h₃⟩ := ho
        rw [show (V.caller rs ps).root = V.node rs from rfl, hn]
        exact ⟨rfl, h₃⟩
      | some n =>
        rw [hn] at ho
        obtain ⟨i', hi', rfl, h₃, hd'⟩ := ho
        obtain ⟨n₀, hn₀, hcross⟩ := Option.bind_eq_some_iff.mp hn
        have hlinked := Files.cross_linked hw (Files.look_linked hw hdir (V.node rs) _ hn₀) hcross
        rw [show (V.caller rs ps).root = V.node rs from rfl, hn]
        have htouched := h₃.touch hi' hd' hlinked.toValid m₃.state.now
        refine runs_look (runs_setInode ?_)
        refine ⟨i', hi', rfl, htouched, ?_⟩
        simpa [Machine.setInode, MInode.node] using hd'

end

end Stands

end Linux011.Path
