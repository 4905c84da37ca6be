/-
`cache.c`, `lru.c` and `bits.c`: the cache simulator.

Arrays are functions of an index. The nodes of a set's LRU queue are numbered
in the order of their `malloc`; their `next` fields and the variable
`set->lru_queue` are a [`Lib.Chain`], and a `LRUNode **` is a [`Lib.Cell`]. What
`malloc` leaves in the accessed bits is a parameter.
-/
import ProjectsInC.Machine
import ProjectsInC.Lib.LinkedList

set_option autoImplicit false

namespace ProjectsInC.CacheSim

open Lib (Chain Cell)

/-! ## Data -/

/-- `address_type` -/
abbrev Address := BitVec 32

/-- A line of a memory trace. -/
structure TraceLine where
  operation : Byte
  address : Address
  size : Byte

inductive AccessResult
  | HIT
  | COLD_MISS
  | CONFLICT_MISS
deriving DecidableEq, Repr

open AccessResult

/-- A line of a set. -/
structure Line where
  valid : Byte
  tag : CInt
  accessed : ℕ → Byte
  block_size : ℕ

/-- `LRUResult`; `line` is the index of the line. -/
structure LRUResult where
  line : ℕ
  access : AccessResult
deriving DecidableEq, Repr

/-- `Set`; `line` gives for each node of the queue the line it is about. -/
structure CacheSet where
  lines : ℕ → Line
  line_count : ℕ
  line : ℕ → ℕ
  lru_queue : Chain ℕ

structure Cache where
  sets : ℕ → CacheSet
  set_count : ℕ
  line_count : ℕ
  block_size : ℕ
  set_bits : ℕ
  block_bits : ℕ

/-! ## `bits.c`

A shift of a 32-bit value by an amount outside 0..31 is undefined in C. -/

/-- `x << n` -/
def shl (x : BitVec 32) (n : ℤ) : Option (BitVec 32) :=
  if 0 ≤ n ∧ n < 32 then some (x <<< n.toNat) else none

/-- `x >> n` -/
def shr (x : BitVec 32) (n : ℤ) : Option (BitVec 32) :=
  if 0 ≤ n ∧ n < 32 then some (x >>> n.toNat) else none

/-- `get_set`: the set bits of an address. -/
def get_set (cache : Cache) (address : Address) : Option CInt :=
  let tag : ℤ := 32 - (cache.set_bits + cache.block_bits)
  (shl address tag).bind (fun x => shr x (cache.block_bits + tag))

/-- `get_line`: the tag bits of an address. -/
def get_line (cache : Cache) (address : Address) : Option CInt :=
  shr address (cache.set_bits + cache.block_bits)

/-- `get_byte`: the byte index of an address. -/
def get_byte (cache : Cache) (address : Address) : Option CInt :=
  let tag : ℤ := 32 - (cache.set_bits + cache.block_bits)
  let tagset := tag + cache.set_bits
  (shl address tagset).bind (fun x => shr x tagset)

/-! ## `lru.c` -/

/-- One round of the loop of `lru_init_queue`: a node for line `i` is chained in
at `*pp`. -/
def chainNode (st : CacheSet × Cell ℕ) (i : ℕ) : CacheSet × Cell ℕ :=
  let (set, pp) := st
  ({ set with
      line := Function.update set.line i i
      lru_queue := (set.lru_queue.set (.next i) none).set pp (some i) }, .next i)

/-- `lru_init_queue`; the local `s` is the head pointer from the start. -/
def lru_init_queue (set : CacheSet) : CacheSet :=
  ((List.range set.line_count).foldl chainNode
    ({ set with lru_queue := set.lru_queue.set .head none }, .head)).1

/-- `lru_init` -/
def lru_init (cache : Cache) : Cache :=
  { cache with sets := fun i =>
      if i < cache.set_count then lru_init_queue (cache.sets i) else cache.sets i }

/-- `*prevp = current->next; current->next = set->lru_queue; set->lru_queue = current` -/
def CacheSet.requeue (set : CacheSet) (prevp : Cell ℕ) (current : ℕ) : CacheSet :=
  let queue := set.lru_queue.set prevp (set.lru_queue.next current)
  let queue := queue.set (.next current) queue.head
  { set with lru_queue := queue.set .head (some current) }

/-- Write to line `i`. -/
def CacheSet.setLine (set : CacheSet) (i : ℕ) (line : Line) : CacheSet :=
  { set with lines := Function.update set.lines i line }

/-- The loop of `lru_fetch` from the place `prevp` on; `none` if it ends without
a result. -/
def lru_fetch_loop : ℕ → CacheSet → BitVec 32 → Cell ℕ → Option (CacheSet × LRUResult)
  | 0, _, _, _ => none
  | fuel + 1, set, tag, prevp =>
      match set.lru_queue.get prevp with
      | none => none
      | some current =>
          let i := set.line current
          let line := set.lines i
          -- in this order: the line of the tag, a free line, the last line
          if line.valid = 1 ∧ line.tag = tag then
            some (set.requeue prevp current, ⟨i, HIT⟩)
          else if line.valid = 0 then
            some ((set.setLine i { line with valid := 1, tag := tag }).requeue prevp current,
              ⟨i, COLD_MISS⟩)
          else if set.lru_queue.next current = none then
            some ((set.setLine i { line with tag := tag }).requeue prevp current,
              ⟨i, CONFLICT_MISS⟩)
          else lru_fetch_loop fuel set tag (.next current)

/-- `lru_fetch`: one pass over the queue, which has a node for each line. -/
def lru_fetch (set : CacheSet) (tag : BitVec 32) : Option (CacheSet × LRUResult) :=
  lru_fetch_loop set.line_count set tag .head

/-! ## `cache.c` -/

/-- `make_lines`; beyond `line_count` there is no line. -/
def make_lines (garbage : ℕ → ℕ → Byte) (block_size : ℕ) : ℕ → Line :=
  fun i => { valid := 0, tag := 0, accessed := garbage i, block_size := block_size }

/-- `make_sets` -/
def make_sets (garbage : ℕ → ℕ → ℕ → Byte) (line_count block_size : ℕ) : ℕ → CacheSet :=
  fun i => { lines := make_lines (garbage i) block_size, line_count := line_count,
             line := fun _ => 0, lru_queue := ⟨none, fun _ => none⟩ }

/-- `make_cache` -/
def make_cache (garbage : ℕ → ℕ → ℕ → Byte) (set_bits line_count block_bits : ℕ) : Cache :=
  lru_init
    { sets := make_sets garbage line_count (2 ^ block_bits)
      set_count := 2 ^ set_bits
      line_count := line_count
      block_size := 2 ^ block_bits
      set_bits := set_bits
      block_bits := block_bits }

/-- `for (i = 0; i < block_size; i++) accessed[i] = 0` -/
def clearAccessed (block_size : ℕ) (accessed : ℕ → Byte) : ℕ → Byte :=
  fun i => if i < block_size then 0 else accessed i

/-- The accessed bits of a line after an access to its byte `b`. -/
def recordByte (block_size : ℕ) (access : AccessResult) (b : CInt) (accessed : ℕ → Byte) :
    ℕ → Byte :=
  Function.update (if access ≠ HIT then clearAccessed block_size accessed else accessed) b.toNat 1

/-- `cache_access`; `none` if a shift is undefined or `lru_fetch` leaves no
result. -/
def cache_access (cache : Cache) (trace_line : TraceLine) : Option (Cache × AccessResult) := do
  let s ← get_set cache trace_line.address
  let t ← get_line cache trace_line.address
  let b ← get_byte cache trace_line.address
  let (set, result) ← lru_fetch (cache.sets s.toNat) t
  let line := set.lines result.line
  let set := set.setLine result.line
    { line with accessed := recordByte cache.block_size result.access b line.accessed }
  some ({ cache with sets := Function.update cache.sets s.toNat set }, result.access)

/-- A sequence of accesses. -/
def cache_accesses (cache : Cache) (trace : List TraceLine) : Option Cache :=
  trace.foldlM (fun cache line => (cache_access cache line).map Prod.fst) cache

end ProjectsInC.CacheSim
