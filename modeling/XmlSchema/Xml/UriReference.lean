import XmlSchema.Text.Blank

/-!
The syntax of references to resources: absolute ones, which begin with a scheme, and relative ones. Each function
gives what follows the part that it reads.
-/

namespace XmlSchema.Xml.UriReference

def isUnreserved (c : CodePoint) : Bool := c.isAsciiAlnum || c = '-' || c = '.' || c = '_' || c = '~'

def isDelimiter (c : CodePoint) : Bool := ("!$&'()*+,;=" : Text).contains c

/-- Reads code points that `p` admits and escapes of a percent sign and two hexadecimal digits. -/
def readWhile (p : CodePoint → Bool) : Text → Text
  | [] => []
  | [a] => if p a then [] else [a]
  | [a, b] => if p a then readWhile p [b] else [a, b]
  | a :: b :: c :: t =>
    if p a then readWhile p (b :: c :: t)
    else if a = '%' && b.hexValue?.isSome && c.hexValue?.isSome then readWhile p t
    else a :: b :: c :: t

def isUserCharacter (c : CodePoint) : Bool := isUnreserved c || isDelimiter c || c = ':'

def isHostCharacter (c : CodePoint) : Bool := isUnreserved c || isDelimiter c

def isPathCharacter (c : CodePoint) : Bool := isUserCharacter c || c = '@'

def isSegmentStart (t : Text) : Bool := (readWhile isPathCharacter t).length < t.length

/-- Segments behind slashes, any of which may be empty. -/
def readPath (t : Text) : Text := readWhile (fun c => isPathCharacter c || c = '/') t

/-- The greatest number of a port. -/
def maxPort : Nat := 2147483647

def readHost? (t : Text) : Option Text := do
  let rest ← match t with
    | [] => some []
    | c :: inside =>
      if c = '[' then (Text.splitAt? "]" inside).map Prod.snd else some (readWhile isHostCharacter (c :: inside))
  match rest with
  | [] => some []
  | c :: port =>
    if c = ':' then
      let (digits, rest) := port.span CodePoint.isAsciiDigit
      if digits.isEmpty || maxPort < Text.digitsValue digits then none else some rest
    else some (c :: port)

def readAuthority? (t : Text) : Option Text :=
  match readWhile isUserCharacter t with
  | [] => readHost? t
  | c :: rest => if c = '@' then readHost? rest else readHost? t

/-- An authority and a path behind two slashes, or a path. The first segment of a path that begins without a slash
holds only what `first` admits. -/
def readHierarchy? (first : CodePoint → Bool) (t : Text) : Option Text :=
  match Text.dropPrefix? "//" t, Text.dropPrefix? "/" t with
  | some authority, _ =>
    (readAuthority? authority).map fun rest => if Text.startsWith rest "/" then readPath rest else rest
  | none, some path => some (if isSegmentStart path then readPath path else path)
  | none, none =>
    if isSegmentStart t then
      let rest := readWhile (fun c => isPathCharacter c && first c) t
      if rest.length < t.length then some (if Text.startsWith rest "/" then readPath rest else rest) else none
    else some t

def readQuery (t : Text) : Text :=
  match Text.dropPrefix? "?" t with
  | some query => readWhile (fun c => isPathCharacter c || c = '/' || c = '?') query
  | none => t

def readFragment (t : Text) : Text :=
  match Text.dropPrefix? "#" t with
  | some fragment => readWhile (fun c => isPathCharacter c || c = '/' || c = '?' || c = '[' || c = ']') fragment
  | none => t

def isWhole (afterHierarchy : Option Text) : Bool :=
  afterHierarchy.any fun rest => (readFragment (readQuery rest)).isEmpty

def isSchemeCharacter (c : CodePoint) : Bool := c.isAsciiAlnum || c = '+' || c = '-' || c = '.'

def isAbsolute (t : Text) : Bool :=
  t.head?.any CodePoint.isAsciiLetter &&
    match t.dropWhile isSchemeCharacter with
    | [] => false
    | c :: rest => c = ':' && isWhole (readHierarchy? (fun _ => true) rest)

def isRelative (t : Text) : Bool := isWhole (readHierarchy? (· ≠ ':') t)

def isValid (t : Text) : Bool := isAbsolute t || isRelative t

end XmlSchema.Xml.UriReference
