import ReserveOS.Chain.Codec

/-!
# Proof of work

Compact targets, the 64-bit work estimate, retargeting and the genesis block, from
`core/consensus/pow` and `core/chain/genesis_block.go`. Targets are naturals, as the non-negative
`big.Int` values are.
-/

namespace ReserveOS

/-- `CompactToBig`. The shift is computed in `uint8`, so `8 * (exponent - 3)` wraps at 256. -/
def compactToBig (compact : UInt32) : ℕ :=
  let exponent : UInt8 := (compact >>> 24).toUInt8
  let mantissa : ℕ := (compact &&& 0x007fffff).toNat
  if exponent ≤ 3 then mantissa >>> (8 * (3 - exponent)).toNat
  else mantissa <<< (8 * (exponent - 3)).toNat

/-- The length of `big.Int.Bytes`. -/
def byteLen (t : ℕ) : ℕ := if t = 0 then 0 else t.log2 / 8 + 1

/-- `big.Int.Bytes`: the big-endian bytes without leading zeros. -/
def bigBytes (t : ℕ) : List UInt8 :=
  (List.range (byteLen t)).map fun i => UInt8.ofNat (t >>> (8 * (byteLen t - 1 - i)))

/-- A big-endian byte list as a `uint64`, bytes beyond the lowest eight being shifted out. -/
def beUInt64 (b : List UInt8) : UInt64 :=
  b.foldl (fun (acc : UInt64) (x : UInt8) => acc <<< 8 ||| x.toUInt64) 0

/-- `BigToCompact`. Up to three bytes the source right-aligns them in four and shifts by eight,
which drops the lowest byte. -/
def bigToCompact (target : ℕ) : UInt32 :=
  if target = 0 then 0
  else
    let b := bigBytes target
    let exponent : UInt32 := UInt32.ofNat b.length
    let mantissa : UInt32 :=
      if exponent ≤ 3 then (beUInt64 b).toUInt32 >>> 8 else (beUInt64 (b.take 3)).toUInt32
    if mantissa &&& 0x00800000 ≠ 0 then
      ((exponent + 1) <<< 24) ||| ((mantissa >>> 8) &&& 0x007fffff)
    else (exponent <<< 24) ||| (mantissa &&& 0x007fffff)

/-- `LeadingZerosToTarget`. -/
def leadingZerosToTarget (lz : UInt32) : ℕ :=
  if lz ≥ 256 then 0 else 2 ^ (256 - lz.toNat) - 1

/-- `HashToBig`: the digest as a big-endian number. -/
def hashToBig (h : Hash) : ℕ := h.bytes.toList.foldl (fun acc b => acc * 256 + b.toNat) 0

/-- `MeetsTarget`. -/
def meetsTarget (hash : Hash) (bits : UInt32) : Bool :=
  0 < compactToBig bits && hashToBig hash ≤ compactToBig bits

/-- The first eight bytes of a target, padded with zeros on the right, as `Work64` reads them. -/
def topBytes (t : ℕ) : UInt64 :=
  beUInt64 ((bigBytes t ++ List.replicate (8 - byteLen t) 0).take 8)

/-- `Work64`. -/
def work64 (bits : UInt32) : UInt64 :=
  let t := compactToBig bits
  if t = 0 then 0
  else if topBytes t = 0 then 0xffffffffffffffff
  else 0xffffffffffffffff / (topBytes t + 1)

/-- `Cumulative`: addition that saturates. -/
def cumulative (parent add : UInt64) : UInt64 :=
  if parent + add < parent then 0xffffffffffffffff else parent + add

/-- `Retarget`. The bounds of the span are computed in `int64`, where the upper one may wrap. -/
def retarget (prevBits : UInt32) (actualSpanSec targetSpanSec : Int64) : UInt32 :=
  if targetSpanSec ≤ 0 then prevBits
  else
    let min := targetSpanSec / 4
    let max := targetSpanSec * 4
    let actualSpanSec := if actualSpanSec < min then min else actualSpanSec
    let actualSpanSec := if max < actualSpanSec then max else actualSpanSec
    if actualSpanSec < targetSpanSec then prevBits + 1
    else if targetSpanSec < actualSpanSec then
      if 1 < prevBits then prevBits - 1 else prevBits
    else prevBits

/-- `GenesisBlock`. -/
def genesisBlock (sha256 : List UInt8 → Hash) (g : Genesis) : Block where
  header :=
    { version := g.protocolVersion
      chainID := g.chainID
      height := 0
      timeUnix := g.genesisTimeUnix
      prevHash := Hash.zero
      stateRoot := genesisStateRootPlaceholder sha256 g
      txRoot := sha256d sha256 (stringBytes "genesis:txroot:none")
      bits := bigToCompact (leadingZerosToTarget g.powLeadingZeroBits)
      nonce := 0 }
  txs := []

end ReserveOS
