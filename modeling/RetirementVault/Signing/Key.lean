import RetirementVault.Crypto.Ed25519
import RetirementVault.Text.Base64
import RetirementVault.Text.Blank
import RetirementVault.Text.Hex
import RetirementVault.Text.Utf8

/-!
# Keys and signatures as text

Keys are 32 bytes in hexadecimal. A signature is 64 bytes in hexadecimal or, if it is not that, in
base 64. Blanks around any of them are dropped first.
-/

namespace RetirementVault.Signing

inductive KeyRole where
  | secretKey
  | publicKey
  deriving DecidableEq, Repr

def KeyRole.name : KeyRole → String
  | .secretKey => "secret key"
  | .publicKey => "public key"

def keyLength : Nat := 32

def signatureLength : Nat := 64

/-- Why a text is no key. -/
inductive KeyFault where
  | notHex (role : KeyRole) (why : Text.Hex.Fault)
  | wrongLength (role : KeyRole) (found : Nat)
  | notOnCurve
  deriving DecidableEq, Repr

def KeyFault.message : KeyFault → String
  | .notHex role why => role.name ++ ": " ++ why.message
  | .wrongLength role found =>
    role.name ++ " must be " ++ Text.decimal keyLength ++ " bytes (" ++ Text.decimal (2 * keyLength)
      ++ " hex chars), got " ++ Text.decimal found
  | .notOnCurve => "signature error: Cannot decompress Edwards point"

/-- Why a text is no signature. -/
inductive EncodingFault where
  | notBase64 (why : Text.Base64.Fault)
  | wrongLength
  deriving DecidableEq, Repr

def EncodingFault.message : EncodingFault → String
  | .notBase64 why => why.message
  | .wrongLength => "signature error"

/-- The bytes of a text without the blanks around it. -/
def trimmedBytes (text : String) : List UInt8 :=
  Text.Utf8.encode (Text.trim text)

def parseKeyBytes (role : KeyRole) (text : String) : Except KeyFault (List UInt8) :=
  match Text.Hex.decode (trimmedBytes text) with
  | .error why => .error (.notHex role why)
  | .ok bytes =>
    if bytes.length = keyLength then .ok bytes else .error (.wrongLength role bytes.length)

def parseSecretKey (text : String) : Except KeyFault (List UInt8) :=
  parseKeyBytes .secretKey text

/-- Reads a public key, which has to be a point of the curve. -/
def parsePublicKey (text : String) : Except KeyFault (List UInt8) :=
  match parseKeyBytes .publicKey text with
  | .error why => .error why
  | .ok bytes =>
    match Crypto.Ed25519.Point.decode? bytes with
    | some _ => .ok bytes
    | none => .error .notOnCurve

/-- Reads the bytes of a signature, hexadecimal first. -/
def decodeSignature (text : List UInt8) : Except EncodingFault (List UInt8) :=
  match Text.Hex.decode text with
  | .ok bytes => .ok bytes
  | .error _ =>
    match Text.Base64.decode text with
    | .ok bytes => .ok bytes
    | .error why => .error (.notBase64 why)

def parseSignature (text : String) : Except EncodingFault (List UInt8) :=
  match decodeSignature (trimmedBytes text) with
  | .error why => .error why
  | .ok bytes => if bytes.length = signatureLength then .ok bytes else .error .wrongLength

end RetirementVault.Signing
