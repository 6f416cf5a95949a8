import Mathlib.Data.List.DropRight
import Mathlib.Data.Nat.Notation

/-! The components of a cache path: how a name becomes one, and which ones a path may have. A
string is its UTF-8 bytes. The digest is the first bytes of SHA-256, which is a parameter. -/
namespace CachePaths

abbrev Bytes := List UInt8

def ascii (text : List Char) : Bytes := text.map fun c => c.toNat.toUInt8

abbrev dot : UInt8 := 46
abbrev slash : UInt8 := 47
abbrev backslash : UInt8 := 92
abbrev percent : UInt8 := 37
abbrev tilde : UInt8 := 126

def maxComponentLen : ℕ := 96
def maxExtensionLen : ℕ := 16
def hashPrefixBytes : ℕ := 16
def defaultExtension : Bytes := ascii ['b', 'i', 'n']

inductive AssetsError where
  | invalidKey
  deriving DecidableEq, Repr

def isLowercase (b : UInt8) : Bool := 97 ≤ b && b ≤ 122
def isUppercase (b : UInt8) : Bool := 65 ≤ b && b ≤ 90
def isDigit (b : UInt8) : Bool := 48 ≤ b && b ≤ 57
def isAlphanumeric (b : UInt8) : Bool := isLowercase b || isUppercase b || isDigit b
def isHexdigit (b : UInt8) : Bool := isDigit b || 97 ≤ b && b ≤ 102 || 65 ≤ b && b ≤ 70

def toLowercase (b : UInt8) : UInt8 := if isUppercase b then b + 32 else b

def lowercase (text : Bytes) : Bytes := text.map toLowercase

def eqIgnoreCase (a b : Bytes) : Bool := lowercase a == lowercase b

def hexDigit (n : Fin 16) : UInt8 :=
  #v[48, 49, 50, 51, 52, 53, 54, 55, 56, 57, 97, 98, 99, 100, 101, 102].get n

def high (b : UInt8) : Fin 16 := ⟨b.toNat / 16, by have := b.toNat_lt; omega⟩
def low (b : UInt8) : Fin 16 := ⟨b.toNat % 16, by omega⟩

def hexByte (b : UInt8) : Bytes := [hexDigit (high b), hexDigit (low b)]

def pushByteEscape (b : UInt8) : Bytes := tilde :: hexByte b

/-- What the encoder leaves as it is. -/
def isPlain (b : UInt8) : Bool := isLowercase b || isDigit b || b == dot || b == 95 || b == 45

def encodeByte (b : UInt8) : Bytes := if isPlain b then [b] else pushByteEscape b

def isTriplet (b x y : UInt8) : Bool := b == percent && isHexdigit x && isHexdigit y

def encodeBytes (preservePercentTriplets : Bool) : Bytes → Bytes
  | [] => []
  | [b] => encodeByte b
  | [b, x] => encodeByte b ++ encodeByte x
  | b :: x :: y :: rest =>
    if preservePercentTriplets && isTriplet b x y then
      tilde :: 112 :: toLowercase x :: toLowercase y :: encodeBytes preservePercentTriplets rest
    else encodeByte b ++ encodeBytes preservePercentTriplets (x :: y :: rest)

def hasTempSuffix (component : Bytes) : Bool :=
  eqIgnoreCase (component.drop (component.length - 4)) (ascii ['.', 't', 'm', 'p'])

def reservedNames : List Bytes :=
  [ascii ['c', 'o', 'n'], ascii ['p', 'r', 'n'], ascii ['a', 'u', 'x'], ascii ['n', 'u', 'l'],
    ascii ['c', 'o', 'n', 'i', 'n', '$'], ascii ['c', 'o', 'n', 'o', 'u', 't', '$'],
    ascii ['c', 'l', 'o', 'c', 'k', '$']]

/-- What is left of the first dot, less the spaces at its end. -/
def deviceStem (component : Bytes) : Bytes :=
  (component.takeWhile (· != dot)).rdropWhile fun b => b == 32 || b == dot

def isReserved (stem : Bytes) : Bool :=
  reservedNames.any (fun reserved => eqIgnoreCase stem reserved) ||
    stem.length == 4 &&
      (eqIgnoreCase (stem.take 3) (ascii ['c', 'o', 'm']) ||
        eqIgnoreCase (stem.take 3) (ascii ['l', 'p', 't'])) &&
      (stem.drop 3).all fun b => 49 ≤ b && b ≤ 57

def isWindowsDeviceName (component : Bytes) : Bool := isReserved (deviceStem component)

def escapedDot : Bytes := ascii ['~', '2', 'e']

def escapeTrailingDots (encoded : Bytes) : Bytes :=
  let trailingDots := (encoded.reverse.takeWhile (· == dot)).length
  encoded.take (encoded.length - trailingDots) ++ (List.replicate trailingDots escapedDot).flatten

def escapeTempSuffix (encoded : Bytes) : Bytes :=
  if hasTempSuffix encoded then
    encoded.take (encoded.length - 4) ++ escapedDot ++ encoded.drop (encoded.length - 3)
  else encoded

def escapeDeviceName (encoded : Bytes) : Bytes :=
  if isWindowsDeviceName encoded then ascii ['~', 'r'] ++ encoded else encoded

def boundLength (encoded fingerprint : Bytes) : Bytes :=
  if encoded.length ≤ maxComponentLen then encoded
  else
    let suffix := ascii ['~', 'h'] ++ fingerprint
    encoded.take (maxComponentLen - suffix.length) ++ suffix

def finishComponent (encoded fingerprint : Bytes) : Bytes :=
  if encoded = [] then encoded
  else
    boundLength (escapeDeviceName (escapeTempSuffix (escapeTrailingDots encoded))) fingerprint

abbrev Digest := Vector UInt8 hashPrefixBytes

def hexText (digest : Digest) : Bytes := digest.toList.flatMap hexByte

variable (digest : Bytes → Digest)

def fingerprint (value : Bytes) : Bytes := hexText (digest value)

def appendComponentSuffix (component suffix identity : Bytes) : Bytes :=
  finishComponent (component ++ suffix) (fingerprint digest identity)

def encodeComponent (value : Bytes) : Bytes :=
  finishComponent (encodeBytes false value) (fingerprint digest value)

def encodeUrlComponent (value : Bytes) : Bytes :=
  if value = [] then ascii ['~', 'e']
  else finishComponent (encodeBytes true value) (fingerprint digest value)

/-- The last dot parts a leaf, if it leaves a stem and a short plain extension. -/
def usableExtension (leaf : Bytes) : Option (Bytes × Bytes) :=
  let extension := leaf.rtakeWhile (· != dot)
  let stem := (leaf.rdropWhile (· != dot)).dropLast
  if dot ∈ leaf ∧ stem ≠ [] ∧ extension ≠ [] ∧ extension.length ≤ maxExtensionLen ∧
      extension.all isAlphanumeric then some (stem, extension)
  else none

/-- The text hashed for a leaf and its query. -/
def leafIdentity (leaf : Bytes) : Option Bytes → Bytes
  | none => leaf
  | some query => leaf ++ 0 :: query

def querySuffix : Option Bytes → Bytes
  | none => []
  | some query => ascii ['~', 'q'] ++ fingerprint digest query

def encodeUrlLeaf (leaf : Bytes) (query : Option Bytes) : Bytes :=
  let query := query.filter (· != [])
  let encoded :=
    if leaf = [] then ascii ['~', 'e'] ++ querySuffix digest query
    else match usableExtension leaf with
      | some (stem, extension) =>
        encodeBytes true stem ++ querySuffix digest query ++ dot :: encodeBytes true extension
      | none => encodeBytes true leaf ++ querySuffix digest query
  finishComponent encoded (fingerprint digest (leafIdentity leaf query))

def forbidden : Bytes := ascii ['<', '>', ':', '"', '/', '\\', '|', '?', '*']

def validateComponent (component : Bytes) : Except AssetsError Unit :=
  if component = [] ∨ component = [dot] ∨ component = [dot, dot] ∨
      maxComponentLen < component.length ∨ ¬ component.all (· < 128) ∨
      component.getLast? = some dot ∨ component.getLast? = some 32 ∨
      component.any (fun b => b ≤ 31 || b == 127 || forbidden.contains b) ∨
      isWindowsDeviceName component then
    .error .invalidKey
  else .ok ()

def validatePathComponent (component : Bytes) : Except AssetsError Unit := do
  validateComponent component
  if hasTempSuffix component then throw .invalidKey

def validatePath (path : Bytes) : Except AssetsError Unit :=
  if path = [] ∨ path.head? = some slash ∨ path.head? = some backslash then .error .invalidKey
  else (path.splitOn slash).forM validatePathComponent

end CachePaths
