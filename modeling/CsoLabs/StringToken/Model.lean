import CsoLabs.Foundation.CString
import CsoLabs.Foundation.Fields

namespace CsoLabs.StringToken

open Foundation

def skipToken (delim : Int8) : List Int8 → ℕ → Option (ℕ × Bool)
  | [], _ => none
  | c :: ahead, str =>
    if c ≠ delim then
      if c = 0 then some (str, true) else skipToken delim ahead (str + 1)
    else some (str, false)

/-- The second loop, which writes behind itself. Returns `str`, `done` and the buffer. -/
def clearDelims (delim : Int8) : List Int8 → ℕ → List Int8 → Option (ℕ × Bool × List Int8)
  | [], _, _ => none
  | c :: ahead, str, buf =>
    if c = delim then
      if c = 0 then some (str, true, buf) else clearDelims delim ahead (str + 1) (buf.set str 0)
    else some (str, false, buf)

/-- Returns the token, the buffer and `*saveptr`. Pointers are offsets into the buffer or NULL;
an access outside the buffer fails. -/
def stringToken (buf : List Int8) (str : Option ℕ) (delim : Int8) (saveptr : Option ℕ) :
    Option (Option ℕ × List Int8 × Option ℕ) :=
  match str.or saveptr with
  | none => some (none, buf, saveptr)
  | some beginning => do
    let (str, done) ← skipToken delim (buf.drop beginning) beginning
    if done then return (some beginning, buf, none)
    let (str, done, buf) ← clearDelims delim (buf.drop str) str buf
    let last ← if done then some true else (buf[str]?).map (decide <| · = 0)
    return (some beginning, buf, if last then none else some str)

def readString : List Int8 → Option (List Int8)
  | [] => none
  | c :: ahead => if c = 0 then some [] else (readString ahead).map (c :: ·)

structure Token where
  offset : ℕ
  string : List Int8

def tokenLoop (delim : Int8) :
    ℕ → List Int8 → Option ℕ → Option ℕ → Option (List Token × List Int8)
  | 0, _, _, _ => none
  | calls + 1, buf, str, saveptr => do
    let (token, buf, saveptr) ← stringToken buf str delim saveptr
    match token with
    | none => return ([], buf)
    | some p => do
      let string ← readString (buf.drop p)
      let (tokens, buf) ← tokenLoop delim calls buf none saveptr
      return (⟨p, string⟩ :: tokens, buf)

def tokens (buf : List Int8) (delim : Int8) (saveptr : Option ℕ) :
    Option (List Token × List Int8) :=
  tokenLoop delim (buf.length + 1) buf (some 0) saveptr

end CsoLabs.StringToken
