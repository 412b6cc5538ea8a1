import XmlSchema.Text

/-!
Expanded names: a namespace and a local part. The empty namespace is none.
-/

namespace XmlSchema

structure Name where
  uri : Text
  localPart : Text
deriving Hashable, Inhabited

namespace Name

/-- Local parts tell names apart sooner than namespaces. -/
instance : DecidableEq Name := fun a b =>
  if hl : a.localPart = b.localPart then
    if hu : a.uri = b.uri then .isTrue (by cases a; cases b; simp_all)
    else .isFalse fun h => hu (h ▸ rfl)
  else .isFalse fun h => hl (h ▸ rfl)

/-- The local part, with the namespace in braces before it when there is one. -/
def display (n : Name) : Text := if n.uri.isEmpty then n.localPart else "\x7b" ++ n.uri ++ "\x7d" ++ n.localPart

/-- Whether the name can be read off its display: the local part holds no colon, and the namespace no closing brace. -/
def isProper (n : Name) : Bool :=
  !n.localPart.contains (CodePoint.ofChar ':') && !n.uri.contains (CodePoint.ofChar '\x7d')

end Name

namespace Namespace

def schema : Text := "http://www.w3.org/2001/XMLSchema"

def schemaInstance : Text := "http://www.w3.org/2001/XMLSchema-instance"

def xml : Text := "http://www.w3.org/XML/1998/namespace"

def xmlns : Text := "http://www.w3.org/2000/xmlns/"

end Namespace

end XmlSchema
