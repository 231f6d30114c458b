import CardinalityTracker.Sketch

/-!
# HyperLogLog sketches (`internal/cardinality/hll`)

`sum64` stands for `murmur3.Sum64`; nothing below depends on which hash it is. The scratch
buffer `idBuf` of the Go struct is overwritten before every use and is not part of the
format, so a sketch is its register array.
-/

namespace CardinalityTracker
namespace Hll

/-- The wire and registry key of HLL sketches. -/
def algoName : GoString := str "hll"

def precision : ℕ := 14

def numRegs : ℕ := 1 <<< precision

theorem numRegs_eq : numRegs = 16384 := rfl

/-- `sketch`: `numRegs` one-byte registers. -/
structure Sketch where
  regs : Vector UInt8 numRegs
deriving DecidableEq

/-- `binary.LittleEndian.PutUint64`. -/
def putUint64 (x : UInt64) : Bytes :=
  (List.range 8).map fun i => (x >>> UInt64.ofNat (8 * i)).toUInt8

/-- `binary.LittleEndian.PutUint16`. -/
def putUint16 (x : UInt16) : Bytes := [x.toUInt8, (x >>> 8).toUInt8]

/-- `binary.LittleEndian.Uint16` of a buffer's first two bytes. -/
def uint16 (b : Bytes) : UInt16 := (b.getD 0 0).toUInt16 ||| (b.getD 1 0).toUInt16 <<< 8

/-- `bits.LeadingZeros64`. -/
def leadingZeros64 (x : UInt64) : ℕ := 64 - x.toNat.size

/-! ## Registers -/

theorem shiftRight_lt_numRegs (hash : UInt64) :
    (hash >>> UInt64.ofNat (64 - precision)).toNat < numRegs := by
  have h := hash.toNat_lt
  have hs : (UInt64.ofNat (64 - precision)).toNat % 64 = 50 := rfl
  rw [UInt64.toNat_shiftRight, hs, Nat.shiftRight_eq_div_pow, numRegs_eq]
  omega

/-- `idx`: the register a hash goes to, its top `precision` bits. -/
def regIndex (hash : UInt64) : Fin numRegs :=
  ⟨(hash >>> UInt64.ofNat (64 - precision)).toNat, shiftRight_lt_numRegs hash⟩

/-- `rho`: one more than the leading zeros of the remaining bits, with a sentinel below. -/
def regRho (hash : UInt64) : UInt8 :=
  let w := hash <<< UInt64.ofNat precision ||| UInt64.ofNat (1 <<< precision - 1)
  UInt8.ofNat (leadingZeros64 w) + 1

variable (sum64 : Bytes → UInt64)

/-- `sketch.Add`. -/
def Sketch.add (s : Sketch) (id : UInt64) : Sketch :=
  let hash := sum64 (putUint64 id)
  let idx := regIndex hash
  let rho := regRho hash
  if rho > s.regs[idx] then ⟨s.regs.set idx rho⟩ else s

/-- `Algorithm.New`. -/
def Sketch.new : Sketch := ⟨Vector.replicate numRegs 0⟩

/-- `sketch.Merge`: the element-wise maximum. -/
def Sketch.merge (s o : Sketch) : Sketch :=
  ⟨Vector.zipWith (fun a b => if b > a then b else a) s.regs o.regs⟩

/-- `sketch.Bytes`. -/
def Sketch.bytes (s : Sketch) : Bytes := putUint16 (UInt16.ofNat precision) ++ s.regs.toList

/-- `Algorithm.Parse`. -/
def parse (b : Bytes) : Except GoString Sketch :=
  if h : b.length < 2 + numRegs then .error (str "hll: buffer too short")
  else if uint16 b ≠ UInt16.ofNat precision then
    .error (str "hll: precision mismatch: got " ++ decimal (uint16 b).toNat ++ str " want "
      ++ decimal precision)
  else .ok ⟨Vector.ofFn fun i => b.get ⟨2 + i, by have := i.isLt; omega⟩⟩

/-! ## The estimate -/

/-- `alphaMM`. -/
def alphaMM : Float :=
  (0.7213 / (1.0 + 1.079 / Float.ofNat numRegs)) * Float.ofNat numRegs * Float.ofNat numRegs

/-- `sketch.Cardinality`, in double precision as the source computes it. Go leaves the conversion
of an estimate that is no `uint64` to the implementation; here it is the largest one. -/
def Sketch.cardinality (s : Sketch) : UInt64 :=
  let sum := s.regs.foldl (fun acc v => acc + Float.pow 2 (-Float.ofNat v.toNat)) 0
  let zeros := s.regs.toList.countP (· == 0)
  let est := alphaMM / sum
  -- small range correction (linear counting)
  let est :=
    if est ≤ 2.5 * Float.ofNat numRegs ∧ 0 < zeros then
      Float.ofNat numRegs * Float.log (Float.ofNat numRegs / Float.ofNat zeros)
    else est
  (Float.round est).toUInt64

/-- `hll.Algorithm`. -/
def algorithm : Algorithm Sketch where
  name := algoName
  new := Sketch.new
  parse := parse
  algoName := fun _ => algoName
  add := Sketch.add sum64
  cardinality := Sketch.cardinality
  merge := Sketch.merge
  bytes := Sketch.bytes
  clone := id

/-- The id is counted in the sketch: the register its hash chooses is at least its rho. -/
def Sketch.Contains (s : Sketch) (id : UInt64) : Prop :=
  regRho (sum64 (putUint64 id)) ≤ s.regs[regIndex (sum64 (putUint64 id))]

end Hll
end CardinalityTracker
