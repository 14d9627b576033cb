import CodeConverter.Text.Encoding

/-!
# Addresses

An address has an optional scheme and host, a path, and an optional query and fragment. Blanks and
control characters in front of it do not count, and neither do tabs and line ends anywhere in it.
-/

namespace CodeConverter.Service

open Text

/-- The parts of an address that matter to a request. -/
structure Address where
  scheme : Text
  path : Text
  query : Text
  deriving DecidableEq

namespace Address

/-- Whether a character in front of an address does not count. -/
def isFiller (c : Char) : Bool :=
  c.toNat ≤ 0x20

/-- Whether a character of an address does not count wherever it stands. -/
def isBreak (c : Char) : Bool :=
  c = '\t' || c = '\r' || c = '\n'

/-- Whether a text is the name of a scheme. -/
def isScheme : Text → Bool
  | [] => false
  | c :: rest =>
    c.isAlpha && rest.all fun c => c.isAlphanum || c = '+' || c = '-' || c = '.'

/-- The scheme and the rest. -/
def cutScheme (t : Text) : Text × Text :=
  let name := t.takeWhile (· ≠ ':')
  if name.length < t.length && isScheme name then (name.map Char.toLower, t.drop (name.length + 1))
  else ([], t)

/-- An address without its host. -/
def dropHost : Text → Text
  | '/' :: '/' :: rest => rest.dropWhile fun c => c ≠ '/' && c ≠ '?' && c ≠ '#'
  | t => t

/-- The parts of an address. -/
def read (t : Text) : Address :=
  let (scheme, rest) := cutScheme ((t.dropWhile isFiller).filter fun c => !isBreak c)
  let target := (dropHost rest).takeWhile (· ≠ '#')
  { scheme := scheme
    path := target.takeWhile (· ≠ '?')
    query := (target.dropWhile (· ≠ '?')).drop 1 }

/-- Path and query. -/
def target (a : Address) : Text :=
  if a.query.isEmpty then a.path else a.path ++ '?' :: a.query

/-- The bytes of a path: a percent sign before two hexadecimal digits stands for a byte, and other
characters for their bytes in UTF-8. -/
def pathBytes : Text → List UInt8
  | '%' :: a :: b :: rest =>
    match hexValue? a, hexValue? b with
    | some high, some low => UInt8.ofNat (high * 16 + low) :: pathBytes rest
    | _, _ => utf8 ['%'] ++ pathBytes (a :: b :: rest)
  | c :: rest => utf8 [c] ++ pathBytes rest
  | [] => []

/-- The path that a request is routed by. What follows the host is read as an address once more, and
slashes in front of the path count as one. -/
def routedPath (a : Address) : Text :=
  let path := (read a.target).path.dropWhile isFiller
  '/' :: (ofUtf8 (pathBytes path)).dropWhile (· = '/')

end Address

end CodeConverter.Service
