import Handheld.Double.Integral

/-!
# Angles of a double

An angle is reduced by the nearest multiple of a quarter or of a half turn. A moderate angle loses
the multiple in three steps, with `π` in three parts; a large one is multiplied by enough binary
places of `4 / π` that the part after the point is right.
-/

namespace Handheld.Double

/-- The digits of `4 / π` to the base `2 ^ 64`, the first before the point. -/
def fourOverPiDigits : List Nat :=
  [0x1, 0x45F306DC9C882A53, 0xF84EAFA3EA69BB81, 0xB6C52B3278872083, 0xFCA2C757BD778AC3,
    0x6E48DC74849BA5C0, 0x0C925DD413A32439, 0xFC3BD63962534E7D, 0xD1046BEA5D768909,
    0xD338E04D68BEFC82, 0x7323AC7306A673E9, 0x3908BF177BF25076, 0x3FF12FFFBC0B301F,
    0xDE5E2316B414DA3E, 0xDA6CFD9E4F96136E, 0x9E8C7ECD3CBFD45A, 0xEA4F758FD7CBE2F6,
    0x7A0E73EF14A525D4, 0xD7F6BF623F1ABA10, 0xAC06608DF8F6D757]

/-- `4 / π` in units of `2 ^ -1216`, rounded down. -/
def fourOverPi : Nat :=
  fourOverPiDigits.foldl (fun n d => n * Nat.pow 2 64 + d) 0

/-- The part after the point of `x · 4 / π / 2 ^ k`, in units of `2 ^ -128`, for a large `x`. Places
that contribute less than one unit to it, or whole numbers only, are left out. -/
def turnFraction (k : Nat) (x : Float) : Nat :=
  let m := Nat.pow 2 52 + (fractionField x).toNat
  let places := (fourOverPi >>> (2099 + k - exponentField x)) % Nat.pow 2 192
  ((places * m) >>> 64) % Nat.pow 2 128

/-- The leading bits of `n / 2 ^ 64` as a double, rounded down; `more` fills up what `n` lacks. -/
def leadingBits (n more : Nat) : Float :=
  let zeros := 63 - n.log2
  let bits := (n <<< (zeros + 1)) % Nat.pow 2 64 ||| more >>> (63 - zeros)
  Float.ofBits ((1022 - zeros) <<< 52 ||| bits >>> 12).toUInt64

/-- The quadrant of a nonnegative angle, from 0 to 3, and the angle from the middle of the quadrant,
between `-π/4` and `π/4`. -/
def quadrant (x : Float) : Nat × Float :=
  if x < 536870912 then
    let q := (magnitude (x * 1.2732395447351628) + 1) / 2
    let k := Float.ofNat (2 * q)
    (q % 4,
      ((x - k * 7.85398125648498535156e-1) - k * 3.77489470793079817668e-8) -
        k * 2.69515142907905952645e-15)
  else
    let p := turnFraction 3 x
    let low := p % Nat.pow 2 64
    let octant := p >>> 125
    let r := leadingBits ((p >>> 61) % Nat.pow 2 64) low
    ((octant + 1) / 2 % 4, (if octant % 2 = 1 then r - 1 else r) * quarterPi)

/-- An angle without the nearest multiple of `π`; half of an odd multiple becomes negative. A large
angle must be positive. -/
def halfTurnRest (x : Float) : Float :=
  if x.abs < 1073741824 then
    let k := trunc (x / pi + 0.5)
    ((x - k * 3.141592502593994) - k * 1.5099578831723193e-07) - k * 1.0780605716316238e-14
  else
    let p := turnFraction 2 x
    let r := leadingBits (p >>> 64) (p % Nat.pow 2 64)
    pi * (if 0.5 < r then r - 1 else r)

end Handheld.Double
