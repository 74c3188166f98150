import EightyNine.Bpf.Decode
import Mathlib.Data.Finset.Insert

/-!
# Guest memory

The memory of a machine is a table of regions that do not overlap.  Every access
goes through `memResolve`, which looks for one region that holds the whole interval
and permits the access.  An access also reports the bytes it touches, so that what
the resolver promises can be stated of the bytes themselves.
-/

namespace Bpf

abbrev Word := BitVec 64

/-- Kinds of regions.  `MEM` and `STACK` may be written. -/
inductive Kind where
  | input | const | mem | stack
deriving DecidableEq

inductive Access where
  | read | write
deriving DecidableEq

/-- The configuration of a region: `init` holds its first `initLen` bytes. -/
structure RegionCfg where
  kind : Kind
  guest : Word
  len : Word
  init : Option (Nat → Byte)
  initLen : Nat

structure Region where
  base : Word
  len : Word
  acc : List Access
  bytes : Nat → Byte

abbrev Memory := List Region

/-- A byte of the host: an offset into the backing of a region. -/
structure Ptr where
  region : Nat
  offset : Nat

/-- A byte a load or a store has touched. -/
structure Touch where
  ptr : Ptr
  acc : Access

/-! ## Construction -/

def kindAcc : Kind → List Access
  | .mem | .stack => [.read, .write]
  | .input | .const => [.read]

def intervalsOverlap (a alen b blen : Word) : Bool :=
  if a ≤ b then a + alen > b else b + blen > a

/-- The interval ends before the address space does. -/
def baseOk (base len : Word) : Bool := len < 0 - base

/-- The bytes of a fresh region.  `fresh` is what the allocator hands out: it shows
where a length is given without the bytes to copy. -/
def initBytes (fresh : Nat → Byte) (rc : RegionCfg) (k : Nat) : Byte :=
  if k < rc.initLen then
    match rc.init with
    | some bytes => bytes k
    | none => fresh k
  else 0

/-- Adds the region of one configuration to those before it. -/
def addRegion (fresh : Nat → Byte) (m : Memory) (rc : RegionCfg) : Except Err Memory :=
  if baseOk rc.guest rc.len ∧ rc.len ≠ 0 ∧ rc.initLen ≤ rc.len.toNat ∧
      m.all (fun r => ! intervalsOverlap rc.guest rc.len r.base r.len) then
    .ok (m ++ [{ base := rc.guest, len := rc.len, acc := kindAcc rc.kind,
                 bytes := initBytes fresh rc }])
  else .error .addr

/-- At most this many regions. -/
def memMax : Nat := 4

def memoryCreate (fresh : Nat → Byte) (cfg : List RegionCfg) : Except Err Memory :=
  if cfg.length > memMax then .error .addr
  else cfg.foldlM (addRegion fresh) []

/-! ## Access -/

/-- Whether a region holds the interval of `bytes` bytes from `addr` on. -/
def Region.holds (r : Region) (addr bytes : Word) : Bool :=
  addr ≥ r.base ∧ addr - r.base ≤ r.len ∧ bytes ≤ r.len - (addr - r.base)

/-- The search of `memResolve` from region `j` on. -/
def resolveFrom (addr bytes : Word) (acc : Access) : Nat → Memory → Except Err Ptr
  | _, [] => .error .addr
  | j, r :: rest =>
    if r.holds addr bytes then
      if acc ∈ r.acc then .ok ⟨j, (addr - r.base).toNat⟩ else .error .perm
    else resolveFrom addr bytes acc (j + 1) rest

def memResolve (m : Memory) (addr bytes : Word) (acc : Access) : Except Err Ptr :=
  resolveFrom addr bytes acc 0 m

/-- The bytes an access of `width` bytes at `p` touches. -/
def touches (p : Ptr) (width : Nat) (acc : Access) : List Touch :=
  (List.range width).map fun k => ⟨⟨p.region, p.offset + k⟩, acc⟩

def Memory.byteAt (m : Memory) (p : Ptr) : Byte :=
  match m[p.region]? with
  | some r => r.bytes p.offset
  | none => 0

def Memory.setByte (m : Memory) (p : Ptr) (v : Byte) : Memory :=
  m.modify p.region fun r =>
    { r with bytes := fun k => if k = p.offset then v else r.bytes k }

/-- The little-endian number in the first `width` bytes of `byte`. -/
def leValue (byte : Nat → Byte) : Nat → Word
  | 0 => 0
  | k + 1 => leValue byte k ||| BitVec.ofNat 64 (byte k).toNat <<< (8 * k)

/-- Byte `k` of the little-endian `v`. -/
def leByte (v : Word) (k : Nat) : Byte := UInt8.ofNat (v >>> (8 * k)).toNat

def readLe (m : Memory) (p : Ptr) (width : Nat) : Word :=
  leValue (fun k => m.byteAt ⟨p.region, p.offset + k⟩) width

/-- Writes the low `width` bytes of `v`. -/
def writeLe (m : Memory) (p : Ptr) (v : Word) : Nat → Memory
  | 0 => m
  | k + 1 => (writeLe m p v k).setByte ⟨p.region, p.offset + k⟩ (leByte v k)

def leWidthOk (width : Nat) : Bool := width = 1 ∨ width = 2 ∨ width = 4 ∨ width = 8

/-- A load: the value, and the bytes it comes from. -/
def memLoad (m : Memory) (addr : Word) (width : Nat) : Except Err (Word × List Touch) :=
  if ! leWidthOk width then .error .size
  else
    match memResolve m addr (BitVec.ofNat 64 width) .read with
    | .error e => .error e
    | .ok p => .ok (readLe m p width, touches p width .read)

/-- A store: the memory after it, and the bytes it went to. -/
def memStore (m : Memory) (addr : Word) (width : Nat) (value : Word) :
    Except Err (Memory × List Touch) :=
  if ! leWidthOk width then .error .size
  else
    match memResolve m addr (BitVec.ofNat 64 width) .write with
    | .error e => .error e
    | .ok p => .ok (writeLe m p value width, touches p width .write)

end Bpf
