import XmlSchema.Text

/-!
Lines of texts.
-/

namespace XmlSchema.Text

/-- Only line feeds end a line. -/
def lineFeeds (t : Text) : Nat := t.countP fun c => c.val = 0xA

/-- A carriage return with a line feed behind it, and one alone, both read as a line feed. -/
def withLineFeeds (t : Text) : Text :=
  (t.foldr (fun c (read, beforeLineFeed) =>
    if c.val = 0xD then (if beforeLineFeed then read else CodePoint.ofChar '\n' :: read, false)
    else (c :: read, decide (c.val = 0xA))) (([], false) : Text × Bool)).1

end XmlSchema.Text
