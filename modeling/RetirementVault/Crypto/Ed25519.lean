import RetirementVault.Crypto.Sha2

/-!
# Ed25519

The signature scheme over the twisted Edwards curve `-x² + y² = 1 + d x² y²` modulo `2²⁵⁵ - 19`.
Points are kept in extended coordinates, where one addition formula serves every pair of points.

Verification is the strict one: the scalar has to be reduced, the key and the commitment may not
have small order, and the recomputed commitment has to have the very bytes of the given one. A
point is read leniently: a `y` that is not reduced is taken modulo the prime, and a sign bit on a
point with `x = 0` is passed over.
-/

namespace RetirementVault.Crypto.Ed25519

/-- The weight of the top bit of 32 bytes. -/
def topBit : Nat := 2 ^ (255 : Nat)

def prime : Nat := topBit - 19

/-- The order of the base point. -/
def order : Nat := topBit / 8 + 27742317777372353535851937790883648493

/-- The curve's coefficient. -/
def coefficient : Nat :=
  37095705934669439343138083508754565189542113879843219016388785533085940283555

/-- A square root of minus one. -/
def rootOfMinusOne : Nat :=
  19681161376707505956807079304988542015446066515923890162744021073123829784752

/-! ## The field -/

def sub (a b : Nat) : Nat :=
  (a + (prime - b)) % prime

def mul (a b : Nat) : Nat :=
  a * b % prime

/-- The bits of a number below `2 ^ 256`, the highest first. -/
def bits (n : Nat) : List Bool :=
  (List.range 256).reverse.map n.testBit

def pow (a e : Nat) : Nat :=
  (bits e).foldl (fun r bit => if bit then mul (mul r r) a else mul r r) 1

def inverse (a : Nat) : Nat :=
  pow a (prime - 2)

/-- The even square root of `u / v`, if there is one. -/
def rootOfRatio? (u v : Nat) : Option Nat :=
  let v₃ := mul (mul v v) v
  let v₇ := mul (mul v₃ v₃) v
  let root := mul (mul u v₃) (pow (mul u v₇) ((prime - 5) / 8))
  let check := mul v (mul root root)
  let even (r : Nat) : Nat := if r % 2 = 0 then r else prime - r
  if check = u then some (even root)
  else if check = sub 0 u then some (even (mul root rootOfMinusOne))
  else none

/-! ## The curve -/

/-- A point with `x = X / Z`, `y = Y / Z` and `x y = T / Z`. -/
structure Point where
  x : Nat
  y : Nat
  z : Nat
  t : Nat

namespace Point

def neutral : Point := ⟨0, 1, 1, 0⟩

def base : Point :=
  let x := 15112221349535400772501151409588531511454012693041857206046113283949847762202
  let y := 46316835694926478169428394003475163141307993866256225615783033603165251855960
  ⟨x, y, 1, mul x y⟩

def add (p q : Point) : Point :=
  let a := mul (sub p.y p.x) (sub q.y q.x)
  let b := mul (p.y + p.x) (q.y + q.x)
  let c := mul (mul p.t (2 * coefficient)) q.t
  let d := mul (p.z * 2) q.z
  let e := sub b a
  let f := sub d c
  let g := (d + c) % prime
  let h := (b + a) % prime
  ⟨mul e f, mul g h, mul f g, mul e h⟩

def neg (p : Point) : Point :=
  ⟨sub 0 p.x, p.y, p.z, sub 0 p.t⟩

/-- A multiple of a point, by a number below `2 ^ 256`. -/
def multiple (n : Nat) (p : Point) : Point :=
  (bits n).foldl (fun r bit => if bit then (r.add r).add p else r.add r) neutral

/-- Whether a point is one of the eight whose order divides eight. -/
def hasSmallOrder (p : Point) : Bool :=
  let q := multiple 8 p
  q.x == 0 && q.y == q.z

end Point

/-! ## Bytes -/

/-- The little-endian bytes of a number. -/
def littleEndian (count n : Nat) : List UInt8 :=
  (List.range count).map fun i => UInt8.ofNat (n / 256 ^ i)

def ofLittleEndian (bytes : List UInt8) : Nat :=
  bytes.foldr (fun b n => b.toNat + 256 * n) 0

/-- The 32 bytes of a point: `y`, with the parity of `x` in the top bit. -/
def Point.encode (p : Point) : List UInt8 :=
  let i := inverse p.z
  littleEndian 32 (mul p.y i + mul p.x i % 2 * topBit)

def Point.decode? (bytes : List UInt8) : Option Point :=
  let n := ofLittleEndian bytes
  let y := n % topBit % prime
  let yy := mul y y
  match rootOfRatio? (sub yy 1) ((mul coefficient yy + 1) % prime) with
  | some root =>
    let x := if n / topBit % 2 = 1 then sub 0 root else root
    some ⟨x, y, 1, mul x y⟩
  | none => none

/-- The scalar that a hash stands for. -/
def scalar (bytes : List UInt8) : Nat :=
  ofLittleEndian bytes % order

/-! ## Keys and signatures -/

/-- The two halves of a hashed secret key: the scalar, with its low bits cleared and its top bit
set, and the seed of the nonces. -/
def expand (secret : List UInt8) : Nat × List UInt8 :=
  let h := sha512.hash secret
  let n := ofLittleEndian (h.take 32)
  (n % (topBit / 2) / 8 * 8 + topBit / 2, h.drop 32)

def publicKey (secret : List UInt8) : List UInt8 :=
  (Point.multiple (expand secret).1 Point.base).encode

/-- The signature of a message: commitment and response. -/
def sign (secret message : List UInt8) : List UInt8 :=
  let (a, seed) := expand secret
  let r := scalar (sha512.hash (seed ++ message))
  let commitment := (Point.multiple r Point.base).encode
  let challenge := scalar (sha512.hash (commitment ++ publicKey secret ++ message))
  commitment ++ littleEndian 32 ((r + challenge * a) % order)

/-- Whether a signature of 64 bytes belongs to a message under a key of 32 bytes. -/
def verify (key message signature : List UInt8) : Bool :=
  let commitment := signature.take 32
  let response := ofLittleEndian (signature.drop 32)
  match Point.decode? key, Point.decode? commitment with
  | some a, some r =>
    let challenge := scalar (sha512.hash (commitment ++ key ++ message))
    let expected := (Point.multiple response Point.base).add (Point.multiple challenge a).neg
    decide (response < order) && !r.hasSmallOrder && !a.hasSmallOrder
      && expected.encode == commitment
  | _, _ => false

end RetirementVault.Crypto.Ed25519
