import Mathlib.Algebra.Order.Ring.Int
import AdaptiveMsi.Common.Scanf
import AdaptiveMsi.Model.Callbacks
/-!
# The configuration file

One line of text names the four sizes of the caches. It is read by
`fscanf`, and what is not read in full ends the program.
-/

namespace AdaptiveMsi

/-- `CACHE_CONFIG`. -/
structure CacheConfig where
  numSets : Int32
  setSize : Int32
  lineSize : Int32
  totalProcessors : Int32
deriving DecidableEq, Repr

/-- What `%i` stores for a number: the low half of the `64` bits that
`strtol` keeps to. An `INT32` is stored as it is; of other numbers C
itself says nothing. -/
def int32 (n : ℤ) : Int32 := Int32.ofInt (max (-2 ^ 63) (min n (2 ^ 63 - 1)))

/-- The format of `init_configuration`. -/
def l1Format : List Char :=
  "L1 Data Cache: #Processors=%i #Sets=%i Associativity=%i LineSize=%i\n".toList

/-- `init_configuration`, for the contents of the file; its error is the
message it exits with. -/
def initConfiguration (config : List Char) : Except String CacheConfig :=
  match Scanf.scan (Scanf.directives l1Format) config with
  | [totalProcessors, numSets, setSize, lineSize] =>
      .ok { totalProcessors := int32 totalProcessors
            numSets := int32 numSets
            setSize := int32 setSize
            lineSize := int32 lineSize }
  | _ => .error "fscanf: cannot access config param for L1 cache"

/-- An `INT32` as a `uint32_t`. -/
def uint32 (n : Int32) : ℕ := n.toUInt32.toNat

namespace CacheConfig

/-- `process_attach` hands `l1_config` to the constructor of the
controller. -/
def processAttach (c : CacheConfig) : Simulator :=
  .processAttach (uint32 c.totalProcessors) (uint32 c.numSets) (uint32 c.lineSize)
    (uint32 c.setSize)

/-- The fields in the order of the file. -/
def fields (c : CacheConfig) : List Int32 := [c.totalProcessors, c.numSets, c.setSize, c.lineSize]

/-- Their values. -/
def numbers (c : CacheConfig) : List ℤ := c.fields.map Int32.toInt

end CacheConfig

end AdaptiveMsi
