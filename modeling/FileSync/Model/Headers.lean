import FileSync.Common.Fields
/-!
# Header values

What is no header value never leaves: the request that was to have it fails
before it is sent, and an answer gets another value in its place.
-/

namespace FileSync.HeaderValue

/-- A space or a tab. -/
def isBlank (c : Char) : Bool := c = ' ' || c = '\t'

/-- Visible ASCII, a space or a tab. -/
def isVisible (c : Char) : Bool := (32 ≤ c.toNat && c.toNat < 127) || c = '\t'

/-- `HeaderValue::from_str`. Whether a character past ASCII is let through is
left to the library. -/
def fromStr (lenient : Bool) (s : String) : Option String :=
  if s.toList.all fun c => isVisible c || (lenient && 127 < c.toNat) then some s else none

/-- Whether a request can have `s` in a header: all but control characters
can be. -/
def accepts (s : String) : Bool := (fromStr true s).isSome

/-- What the other side has of it. -/
def arrived (s : String) : String := String.ofList (Fields.strip isBlank s.toList)

/-- `HeaderValue::to_str` -/
def toStr (s : String) : Option String := if s.toList.all isVisible then some s else none

end FileSync.HeaderValue
