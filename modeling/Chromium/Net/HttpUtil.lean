import Chromium.Library.Bytes
import Chromium.Library.Tokens
import Mathlib.Data.UInt

/-!
# Header lines and their values

`HeadersIterator` and `ValuesIterator`, whose iterators are offsets into a
text.
-/

namespace Chromium.Net

open Library (Span tokens)

/-- The bytes of a text of ASCII characters. -/
def ascii (text : String) : Bytes := text.toList.map fun c => UInt8.ofNat c.toNat

def toLowerASCII (c : UInt8) : UInt8 := if 0x41 <= c ∧ c <= 0x5a then c + 0x20 else c

/-- `LowerCaseEqualsASCII`. -/
def lowerCaseEqualsASCII (a : Bytes) (b : String) : Bool := a.map toLowerASCII == ascii b

namespace HttpUtil

/-- `HttpUtil::IsLWS`; a null byte is found as the end of the searched
string. -/
def isLWS (c : UInt8) : Bool := c == 0x20 || c == 0x09 || c == 0

variable (text : Bytes)

/-- `HttpUtil::TrimLWS`. -/
def trimLWS (span : Span) : Span := span.trim isLWS text

/-- `HttpUtil::IsNonCoalescingHeader`. -/
def isNonCoalescingHeader (name : Bytes) : Bool :=
  ["date", "expires", "last-modified", "location", "retry-after", "set-cookie",
    "www-authenticate", "proxy-authenticate"].any (lowerCaseEqualsASCII name)

/-- The name and the values of a header. -/
structure Header where
  name : Span
  values : Span
deriving DecidableEq

def Header.shift (offset : Nat) (header : Header) : Header :=
  ⟨header.name.shift offset, header.values.shift offset⟩

/-- The header in a line, if it is not malformed, in
`HeadersIterator::GetNext`. -/
def headerOfLine (line : Bytes) : Option Header :=
  let colon := line.findIdx (· == 0x3a)
  if colon = line.length then none
  -- If the name starts with LWS, it is an invalid line.
  else if colon = 0 ∨ isLWS (line.getD 0 0) then none
  else
    let name := trimLWS line ⟨0, colon⟩
    if name.first = name.last then none
    else some ⟨name, trimLWS line ⟨colon + 1, line.length⟩⟩

/-- The lines of a text from an offset on, between null bytes. -/
def lines (offset : Nat) : List Span :=
  (tokens () (fun _ c => if c = 0 then none else some ())
    (text.drop offset)).map (Span.shift offset)

/-- The headers that a `HeadersIterator` finds. -/
def headers (offset : Nat) : List Header :=
  (lines text offset).filterMap fun line =>
    (headerOfLine (line.of text)).map (Header.shift line.first)

structure AdvanceState where
  in_quote : Bool := false
  in_escape : Bool := false
  quote_char : UInt8 := 0
deriving DecidableEq

/-- `StringTokenizer::AdvanceOne`, for values that are delimited by commas. -/
def advanceOne (state : AdvanceState) (c : UInt8) : Option AdvanceState :=
  if state.in_quote then
    if state.in_escape then some { state with in_escape := false }
    else if c = 0x5c then some { state with in_escape := true }
    else if c = state.quote_char then some { state with in_quote := false }
    else some state
  else if c = 0x2c then none
  else
    some { state with
      quote_char := c
      in_quote := c == 0x27 || c == 0x22 }

/-- The values that a `ValuesIterator` finds; empty ones are passed over. -/
def values : List Span :=
  ((tokens {} advanceOne text).map (trimLWS text)).filter fun value => value.first ≠ value.last

end HttpUtil
end Chromium.Net
