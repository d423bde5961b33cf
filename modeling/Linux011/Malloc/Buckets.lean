import Mathlib.Algebra.Group.Nat.Defs
import Linux011.Lib.Outcome
import Linux011.Lib.Chain

/-!
# lib/malloc.c

The allocator of the kernel. A pointer is an address or `NULL`, which is `none`. `word` is the pointer
stored at an address, `desc` and `next` are the bucket descriptors by their addresses; `next` is their
link. `bucket_dir` is its sizes and the starts of its chains.

`given` is what `get_free_page` is going to answer, and `held` has the pages that it gave and that were
not given back.
-/

namespace Linux011.Malloc

open Linux011.Lib

/-- A call stops in a panic, or it follows more links than there are pages. -/
inductive Stop where
  | panic (text : String)
  | endless
  deriving DecidableEq

def pageSize : Nat := 4096

/-- The sizes of `bucket_dir`. -/
def sizes : List Nat := [16, 32, 64, 128, 256, 512, 1024, 2048, 4096]

/-- `struct bucket_desc` but its link. -/
structure BucketDesc where
  page : Option Nat
  freeptr : Option Nat
  refcnt : Nat
  bucketSize : Nat

structure Heap where
  word : Nat → Option Nat
  desc : Nat → BucketDesc
  next : Nat → Option Nat
  chain : Nat → Option Nat
  freeBucketDesc : Option Nat
  given : List Nat
  held : List Nat

/-- A loop that links `count + 1` pieces of memory of one size, from `a` on, and the last one to `last`. -/
def carve (size : Nat) (last : Option Nat) : (count : Nat) → (a : Nat) → (Nat → Option Nat) → Nat → Option Nat
  | 0, a, next => Function.update next a last
  | count + 1, a, next => carve size last count (a + size) (Function.update next a (some (a + size)))

namespace Heap

def setDesc (d : Nat) (f : BucketDesc → BucketDesc) (s : Heap) : Heap :=
  { s with desc := Function.update s.desc d (f (s.desc d)) }

/-- `get_free_page` -/
def getFreePage (s : Heap) : Option Nat × Heap :=
  match s.given with
  | [] => (none, s)
  | p :: given => (some p, { s with given, held := p :: s.held })

/-- `free_page` -/
def freePage (page : Option Nat) (s : Heap) : Heap :=
  match page with
  | none => s
  | some p => { s with held := s.held.erase p }

/-- `init_bucket_desc`; a descriptor has 16 bytes. -/
def initBucketDesc (s : Heap) : Except Stop Heap :=
  match s.getFreePage with
  | (none, _) => .error (.panic "Out of memory in init_bucket_desc()")
  | (some first, s) =>
    .ok { s with
      next := carve 16 s.freeBucketDesc (pageSize / 16 - 1) first s.next
      freeBucketDesc := some first }

/-- The search of `malloc` for a descriptor which has free space. -/
def findFree (s : Heap) : (fuel : Nat) → Option Nat → Except Stop (Option Nat)
  | _, none => .ok none
  | 0, some _ => .error .endless
  | fuel + 1, some bdesc =>
    if (s.desc bdesc).freeptr.isSome then .ok (some bdesc) else s.findFree fuel (s.next bdesc)

/-- `malloc` takes the first free descriptor for a new page. -/
def openBucket (bdir size : Nat) (s : Heap) : Except Stop (Nat × Heap) :=
  match s.freeBucketDesc with
  | none => .error (.panic "NULL")
  | some bdesc =>
    let s := { s with freeBucketDesc := s.next bdesc }
    match s.getFreePage with
    | (none, _) => .error (.panic "Out of memory in kernel malloc()")
    | (some cp, s) =>
      let s := s.setDesc bdesc fun _ => ⟨some cp, some cp, 0, size⟩
      .ok (bdesc, { s with
        word := carve size none (pageSize / size - 1) cp s.word
        next := Function.update s.next bdesc (s.chain bdir)
        chain := Function.update s.chain bdir (some bdesc) })

def newBucket (bdir size : Nat) (s : Heap) : Except Stop (Nat × Heap) := do
  let s ← if s.freeBucketDesc = none then s.initBucketDesc else .ok s
  s.openBucket bdir size

/-- The end of `malloc`: the first free object of a bucket. -/
def take (bdesc : Nat) (s : Heap) : Except Stop (Nat × Heap) :=
  match (s.desc bdesc).freeptr with
  | none => .error (.panic "NULL")
  | some retval =>
    .ok (retval, s.setDesc bdesc fun d => { d with freeptr := s.word retval, refcnt := (d.refcnt + 1) % 2 ^ 16 })

def malloc (len : Nat) (s : Heap) : Except Stop (Nat × Heap) :=
  match sizes.findIdx? fun size => len ≤ size with
  | none => .error (.panic "malloc: bad arg")
  | some bdir => do
    match ← s.findFree s.held.length (s.chain bdir) with
    | some bdesc => s.take bdesc
    | none =>
      let (bdesc, s) ← s.newBucket bdir (sizes.getD bdir 0)
      s.take bdesc

/-- The search of `free_s` in one chain, for the descriptor of `page` and the one before it. -/
def findPage (s : Heap) (page : Nat) :
    (fuel : Nat) → (bdesc prev : Option Nat) → Except Stop (Option (Nat × Option Nat))
  | _, none, _ => .ok none
  | 0, some _, _ => .error .endless
  | fuel + 1, some bdesc, prev =>
    if (s.desc bdesc).page = some page then .ok (some (bdesc, prev))
    else s.findPage page fuel (s.next bdesc) (some bdesc)

/-- The search of `free_s` through `bucket_dir`. -/
def search (s : Heap) (page size : Nat) : List (Nat × Nat) → Except Stop (Nat × Nat × Option Nat)
  | [] => .error (.panic "Bad address passed to kernel free_s()")
  | (bucket, bdir) :: dirs =>
    if bucket < size then s.search page size dirs
    else do
      match ← s.findPage page s.held.length (s.chain bdir) none with
      | some (bdesc, prev) => return (bdir, bdesc, prev)
      | none => s.search page size dirs

/-- The second search for the descriptor before `bdesc`. -/
def findPrev (s : Heap) (bdesc : Nat) : (fuel : Nat) → (prev : Option Nat) → Except Stop (Option Nat)
  | _, none => .ok none
  | 0, some _ => .error .endless
  | fuel + 1, some prev =>
    if s.next prev = some bdesc then .ok (some prev) else s.findPrev bdesc fuel (s.next prev)

/-- The predecessor is looked for again if it is not accurate. -/
def checkPrev (bdir bdesc : Nat) (prev : Option Nat) (s : Heap) : Except Stop (Option Nat) :=
  match prev with
  | some p => if s.next p = some bdesc then .ok prev else s.findPrev bdesc s.held.length (s.chain bdir)
  | none =>
    if s.chain bdir = some bdesc then .ok prev else s.findPrev bdesc s.held.length (s.chain bdir)

/-- `free_s` takes a descriptor out of its chain. -/
def unlink (bdir bdesc : Nat) (prev : Option Nat) (s : Heap) : Except Stop Heap :=
  match prev with
  | some p => .ok { s with next := Function.update s.next p (s.next bdesc) }
  | none =>
    if s.chain bdir = some bdesc then .ok { s with chain := Function.update s.chain bdir (s.next bdesc) }
    else .error (.panic "malloc bucket chains corrupted")

/-- `free_s` gives the page of a descriptor back, and the descriptor becomes a free one. -/
def retire (bdesc : Nat) (s : Heap) : Heap :=
  let s := s.freePage (s.desc bdesc).page
  { s with next := Function.update s.next bdesc s.freeBucketDesc, freeBucketDesc := some bdesc }

/-- `free_s` links an object into the chain of its page. -/
def put (bdesc obj : Nat) (s : Heap) : Heap :=
  { s.setDesc bdesc fun d => { d with freeptr := some obj, refcnt := (d.refcnt + (2 ^ 16 - 1)) % 2 ^ 16 } with
    word := Function.update s.word obj (s.desc bdesc).freeptr }

/-- `free_s`; `obj & 0xfffff000` is the page. -/
def freeS (obj size : Nat) (s : Heap) : Except Stop Heap := do
  let (bdir, bdesc, prev) ← s.search (obj / pageSize * pageSize) size sizes.zipIdx
  let s := s.put bdesc obj
  if (s.desc bdesc).refcnt = 0 then do
    let prev ← s.checkPrev bdir bdesc prev
    let s ← s.unlink bdir bdesc prev
    return s.retire bdesc
  else return s

end Heap

end Linux011.Malloc
