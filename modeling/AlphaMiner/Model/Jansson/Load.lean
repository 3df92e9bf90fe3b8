import AlphaMiner.Model.Jansson.Utf
import AlphaMiner.Model.Jansson.Value
import AlphaMiner.Model.JsonNumbers

/-!
# Reading a JSON text (`compat/jansson/load.c`)

The text in front of its terminator is a list without a zero byte, and what is
left of it at `data + pos` is the list that is carried. `EOF` is a `char` by the
time the lexer compares it, so it is the byte 255. A string buffer is what was
appended to it, and the position and the line are numbers without a bound, which
they have as `int` once a text is 2 GiB long.

`error` and `errno` belong to the caller and go along in `Lex`: of `errno` all
that is read is whether it is `ERANGE`, and nothing here takes that back. `strtod`
is a parameter. It answers the number its double stands for, something that is
not zero in place of `HUGE_VAL`, and whether it set `ERANGE`.

Every loop over the stream stops at the end of the text, so it has as many rounds
as bytes are left, and the parser has rounds enough for every token.
-/

namespace AlphaMiner.Jansson

open Lib

/-- `(char)EOF`. -/
def eof : UInt8 := 0xFF

structure Stream where
  /-- What `get` has not returned yet. -/
  data : Bytes
  /-- In front of its terminator. -/
  buffer : Bytes
  bufferPos : Nat
  streamPos : Nat

structure JsonError where
  text : Bytes
  line : Int

/-- With the value of the token. -/
inductive Tok where
  | invalid
  | eof
  | char (c : UInt8)
  | string (s : Bytes)
  | integer (i : Int)
  | real (r : Rat)
  | true
  | false
  | null
  deriving DecidableEq

structure Lex where
  stream : Stream
  savedText : Bytes
  token : Tok
  line : Nat
  error : JsonError
  erange : Bool

/-! ## Errors -/

def hex (n : Nat) : Bytes := ascii (String.ofList (Nat.toDigits 16 n))

/-- `%04X`. -/
def hex4 (n : Nat) : Bytes :=
  let digits := (Nat.toDigits 16 n).map Char.toUpper
  ascii (String.ofList (List.replicate (4 - digits.length) '0' ++ digits))

/-- `snprintf` into `JSON_ERROR_TEXT_LENGTH` bytes. -/
def errorText (s : Bytes) : Bytes := s.take 159

/-- `error_set` without a lexer. -/
def errorSetPlain (lex : Lex) (msg : Bytes) : Lex :=
  if lex.error.text ≠ [] then lex else { lex with error := ⟨errorText msg, -1⟩ }

/-- Only the first error is kept. -/
def errorSet (lex : Lex) (msg : Bytes) : Lex :=
  if lex.error.text ≠ [] then lex
  else
    let text := errorText msg
    let whole :=
      if lex.savedText.headD 0 ≠ 0 then
        if lex.savedText.length ≤ 20 then text ++ ascii " near '" ++ lex.savedText ++ ascii "'"
        else text
      else text ++ ascii " near end of file"
    { lex with error := ⟨errorText whole, lex.line⟩ }

/-! ## The stream -/

/-- `string_get`, and what is left. -/
def stringGet (data : Bytes) : UInt8 × Bytes :=
  match data with
  | [] => (eof, [])
  | c :: rest => (c, rest)

/-- The loop in `stream_get`. -/
def stringGets : Nat → Bytes → Bytes × Bytes
  | 0, data => ([], data)
  | n + 1, data =>
      let (c, data) := stringGet data
      let (cs, data) := stringGets n data
      (c :: cs, data)

/-- `out` of `stream_get`. -/
def streamGet.out (lex : Lex) (c : UInt8) (data : Bytes) : UInt8 × Lex :=
  let lex := errorSetPlain lex (ascii "unable to decode byte 0x" ++ hex c.toNat ++
    ascii " at position " ++ ascii (toString lex.stream.streamPos))
  (eof, { lex with stream := { lex.stream with data := data, buffer := [eof], bufferPos := 1 } })

def streamGet (lex : Lex) : UInt8 × Lex :=
  let s := lex.stream
  let now := s.buffer.getD s.bufferPos 0
  if now ≠ 0 then (now, { lex with stream := { s with bufferPos := s.bufferPos + 1 } })
  else
    let (c, data) := stringGet s.data
    if 0x80 ≤ c ∧ c ≠ eof then
      let count := utf8CheckFirst c
      if count = 0 then streamGet.out lex c data
      else
        let (more, data) := stringGets (count - 1) data
        if (utf8CheckFull (c :: more) count).isNone then streamGet.out lex c data
        else (c, { lex with stream := ⟨data, c :: more, 1, s.streamPos + count⟩ })
    else (c, { lex with stream := ⟨data, [c], 1, s.streamPos + 1⟩ })

def streamUnget (lex : Lex) : Lex :=
  { lex with stream := { lex.stream with bufferPos := lex.stream.bufferPos - 1 } }

/-- The bytes that are left. -/
def Lex.unread (lex : Lex) : Nat :=
  (lex.stream.buffer.length - lex.stream.bufferPos) + lex.stream.data.length

/-! ## The lexer -/

def lexEof (lex : Lex) : Bool := lex.stream.data.isEmpty

def lexSave (lex : Lex) (c : UInt8) : Lex := { lex with savedText := lex.savedText ++ [c] }

def lexGetSave (lex : Lex) : UInt8 × Lex :=
  let (c, lex) := streamGet lex
  (c, lexSave lex c)

def lexUngetUnsave (lex : Lex) : Lex :=
  let lex := streamUnget lex
  { lex with savedText := lex.savedText.dropLast }

def lexSaveCached (lex : Lex) : Lex :=
  { lex with
    savedText := lex.savedText ++ lex.stream.buffer.drop lex.stream.bufferPos
    stream := { lex.stream with bufferPos := max lex.stream.bufferPos lex.stream.buffer.length } }

/-- `while(p(c)) c = lex_get_save(lex, error)`. -/
def saveWhile (p : UInt8 → Bool) : Nat → UInt8 → Lex → UInt8 × Lex
  | 0, c, lex => (c, lex)
  | fuel + 1, c, lex =>
      if p c then
        let (c, lex) := lexGetSave lex
        saveWhile p fuel c lex
      else (c, lex)

def isupper (c : UInt8) : Bool := 65 ≤ c && c ≤ 90

def islower (c : UInt8) : Bool := 97 ≤ c && c ≤ 122

def isxdigit (c : UInt8) : Bool := isdigit c || (65 ≤ c && c ≤ 70) || (97 ≤ c && c ≤ 102)

/-! ### Strings -/

/-- What one hexadecimal digit adds. -/
def hexOf (c : UInt8) : Nat :=
  if isdigit c then c.toNat - 48
  else if islower c then c.toNat - 97 + 10
  else c.toNat - 65 + 10

/-- `str` points to `u` and at least 4 hex digits. -/
def decodeUnicodeEscape (str : Bytes) : Nat :=
  ((str.drop 1).take 4).foldl (fun value c => value <<< 4 + hexOf c) 0

/-- The four rounds after `\u`, and whether they all had a digit. -/
def scanHex : Nat → UInt8 → Lex → Bool × UInt8 × Lex
  | 0, c, lex => (true, c, lex)
  | n + 1, c, lex =>
      if !isxdigit c then (false, c, lex)
      else
        let (c, lex) := lexGetSave lex
        scanHex n c lex

/-- After a backslash: whether this is an escape, and the byte behind it. -/
def scanEscape (lex : Lex) : Bool × UInt8 × Lex :=
  let (c, lex) := lexGetSave lex
  if c = 117 then
    let (c, lex) := lexGetSave lex
    match scanHex 4 c lex with
    | (false, c, lex) => (false, c, errorSet (lexUngetUnsave lex) (ascii "invalid escape"))
    | (true, c, lex) => (true, c, lex)
  else if c = 34 ∨ c = 92 ∨ c = 47 ∨ c = 98 ∨ c = 102 ∨ c = 110 ∨ c = 114 ∨ c = 116 then
    (true, lexGetSave lex)
  else (false, c, errorSet (lexUngetUnsave lex) (ascii "invalid escape"))

def prematureEnd (lex : Lex) : Lex :=
  let lex := lexUngetUnsave lex
  if lexEof lex then errorSet lex (ascii "premature end of input") else lex

def controlCharacter (c : UInt8) (lex : Lex) : Lex :=
  errorSet (lexUngetUnsave lex)
    (if c = 10 then ascii "unexpected newline" else ascii "control character 0x" ++ hex c.toNat)

/-- The first pass: whether the closing quotation mark was reached. -/
def scanQuoted : Nat → UInt8 → Lex → Bool × Lex
  | 0, _, lex => (false, lex)
  | fuel + 1, c, lex =>
      if c = 34 then (true, lex)
      else if c = eof then (false, prematureEnd lex)
      else if c ≤ 0x1F then (false, controlCharacter c lex)
      else
        let (ok, c, lex) := if c = 92 then scanEscape lex else (true, lexGetSave lex)
        if ok then scanQuoted fuel c lex else (false, lex)

/-- What the second pass writes for a letter after a backslash. -/
def shortEscape (c : UInt8) : UInt8 :=
  if c = 98 then 8
  else if c = 102 then 12
  else if c = 110 then 10
  else if c = 114 then 13
  else if c = 116 then 9
  else c

/-- The second pass, from `p` on with what has been written to `t`. An error is its
message. -/
def unescape : Nat → (p t : Bytes) → Except Bytes Bytes
  | 0, _, t => .ok t
  | fuel + 1, p, t =>
      let c := p.headD 34
      if c = 34 then .ok t
      else if c = 92 then
        let p := p.tail
        if p.headD 34 = 117 then
          let value := decodeUnicodeEscape p
          let p := p.drop 5
          if 0xD800 ≤ value ∧ value ≤ 0xDBFF then
            if p.headD 34 = 92 ∧ p.tail.headD 34 = 117 then
              let value2 := decodeUnicodeEscape p.tail
              let p := p.tail.drop 5
              if 0xDC00 ≤ value2 ∧ value2 ≤ 0xDFFF then
                let value := ((value - 0xD800) <<< 10) + (value2 - 0xDC00) + 0x10000
                unescape fuel p (t ++ (utf8Encode value).getD [])
              else
                .error (ascii "invalid Unicode '\\u" ++ hex4 value ++ ascii "\\u" ++ hex4 value2 ++
                  ascii "'")
            else .error (ascii "invalid Unicode '\\u" ++ hex4 value ++ ascii "'")
          else if 0xDC00 ≤ value ∧ value ≤ 0xDFFF then
            .error (ascii "invalid Unicode '\\u" ++ hex4 value ++ ascii "'")
          else if value = 0 then .error (ascii "\\u0000 is not allowed")
          else unescape fuel p (t ++ (utf8Encode value).getD [])
        else unescape fuel p.tail (t ++ [shortEscape (p.headD 34)])
      else unescape fuel p.tail (t ++ [c])

def lexScanString (lex : Lex) : Lex :=
  let lex := { lex with token := .invalid }
  let (c, lex) := lexGetSave lex
  match scanQuoted (lex.unread + 2) c lex with
  | (false, lex) => lex
  | (true, lex) =>
      match unescape lex.savedText.length lex.savedText.tail [] with
      | .error msg => errorSet lex msg
      | .ok s => { lex with token := .string s }

/-! ### Numbers -/

section
variable (long : LongWidth) (strtod : Bytes → Rat × Bool)

/-- The end of `lex_scan_number`. -/
def scanReal (lex : Lex) : Lex :=
  let lex := lexUngetUnsave lex
  let (value, erange) := strtod lex.savedText
  let lex := { lex with erange := lex.erange || erange }
  if lex.erange ∧ value ≠ 0 then errorSet lex (ascii "real number overflow")
  else { lex with token := .real value }

def scanExponent (c : UInt8) (lex : Lex) : Lex :=
  if c = 69 ∨ c = 101 then
    let (c, lex) := lexGetSave lex
    let (c, lex) := if c = 43 ∨ c = 45 then lexGetSave lex else (c, lex)
    if !isdigit c then lexUngetUnsave lex
    else
      let (c, lex) := lexGetSave lex
      let (_, lex) := saveWhile isdigit (lex.unread + 2) c lex
      scanReal strtod lex
  else scanReal strtod lex

def scanFraction (c : UInt8) (lex : Lex) : Lex :=
  if c = 46 then
    let (c, lex) := streamGet lex
    if !isdigit c then lex
    else
      let (c, lex) := lexGetSave (lexSave lex c)
      let (c, lex) := saveWhile isdigit (lex.unread + 2) c lex
      scanExponent strtod c lex
  else scanExponent strtod c lex

def scanInteger (lex : Lex) : Lex :=
  let lex := lexUngetUnsave lex
  let l := strtol long lex.savedText
  let lex := { lex with erange := lex.erange || l.erange }
  if (l.value = long.max ∧ lex.erange) ∨ l.value > intMax then
    errorSet lex (ascii "too big integer")
  else if (l.value = -long.max - 1 ∧ lex.erange) ∨ l.value < -intMax - 1 then
    errorSet lex (ascii "too big negative integer")
  else { lex with token := .integer l.value }

def afterInteger (c : UInt8) (lex : Lex) : Lex :=
  if c ≠ 46 ∧ c ≠ 69 ∧ c ≠ 101 then scanInteger long lex else scanFraction strtod c lex

def lexScanNumber (c : UInt8) (lex : Lex) : Lex :=
  let lex := { lex with token := .invalid }
  let (c, lex) := if c = 45 then lexGetSave lex else (c, lex)
  if c = 48 then
    let (c, lex) := lexGetSave lex
    if isdigit c then lexUngetUnsave lex else afterInteger long strtod c lex
  else if isdigit c then
    let (c, lex) := lexGetSave lex
    let (c, lex) := saveWhile isdigit (lex.unread + 2) c lex
    afterInteger long strtod c lex
  else lexUngetUnsave lex

/-! ### Tokens -/

def isBlankChar (c : UInt8) : Bool := c = 32 || c = 9 || c = 10 || c = 13

def skipBlanks : Nat → UInt8 → Lex → UInt8 × Lex
  | 0, c, lex => (c, lex)
  | fuel + 1, c, lex =>
      if isBlankChar c then
        let (c, lex) := streamGet (if c = 10 then { lex with line := lex.line + 1 } else lex)
        skipBlanks fuel c lex
      else (c, lex)

def isLetter (c : UInt8) : Bool := isupper c || islower c

def lexScanName (lex : Lex) : Lex :=
  let (c, lex) := lexGetSave lex
  let (_, lex) := saveWhile isLetter (lex.unread + 2) c lex
  let lex := lexUngetUnsave lex
  { lex with
    token :=
      if lex.savedText = ascii "true" then .true
      else if lex.savedText = ascii "false" then .false
      else if lex.savedText = ascii "null" then .null
      else .invalid }

def lexScan (lex : Lex) : Lex :=
  let (c, lex) := streamGet { lex with savedText := [] }
  let (c, lex) := skipBlanks (lex.unread + 2) c lex
  if c = eof then { lex with token := if lexEof lex then .eof else .invalid }
  else
    let lex := lexSave lex c
    if c = 123 ∨ c = 125 ∨ c = 91 ∨ c = 93 ∨ c = 58 ∨ c = 44 then { lex with token := .char c }
    else if c = 34 then lexScanString lex
    else if isdigit c ∨ c = 45 then lexScanNumber long strtod c lex
    else if isLetter c then lexScanName lex
    else { lexSaveCached lex with token := .invalid }

/-! ## The parser -/

mutual

def parseValue : Nat → Lex → Option JsonT × Lex
  | 0, lex => (none, lex)
  | fuel + 1, lex =>
      match lex.token with
      | .string s => (some (.string s), lex)
      | .integer i => (some (.integer i), lex)
      | .real r => (some (.real r), lex)
      | .true => (some .true, lex)
      | .false => (some .false, lex)
      | .null => (some .null, lex)
      | .char c =>
          if c = 123 then parseObject fuel lex
          else if c = 91 then parseArray fuel lex
          else (none, errorSet lex (ascii "unexpected token"))
      | .invalid => (none, errorSet lex (ascii "invalid token"))
      | .eof => (none, errorSet lex (ascii "unexpected token"))

def parseObject : Nat → Lex → Option JsonT × Lex
  | 0, lex => (none, lex)
  | fuel + 1, lex =>
      let lex := lexScan long strtod lex
      if lex.token = .char 125 then (some jsonObject, lex) else parseMembers fuel jsonObject lex

/-- The loop of `parse_object`. -/
def parseMembers : Nat → JsonT → Lex → Option JsonT × Lex
  | 0, _, lex => (none, lex)
  | fuel + 1, object, lex =>
      match lex.token with
      | .string key =>
          let lex := lexScan long strtod lex
          if lex.token ≠ .char 58 then (none, errorSet lex (ascii "':' expected"))
          else
            match parseValue fuel (lexScan long strtod lex) with
            | (none, lex) => (none, lex)
            | (some value, lex) =>
                match jsonObjectSetNewNocheck object key value with
                | none => (none, lex)
                | some object =>
                    let lex := lexScan long strtod lex
                    if lex.token = .char 44 then
                      parseMembers fuel object (lexScan long strtod lex)
                    else if lex.token = .char 125 then (some object, lex)
                    else (none, errorSet lex (ascii "'\x7d' expected"))
      | _ => (none, errorSet lex (ascii "string or '\x7d' expected"))

def parseArray : Nat → Lex → Option JsonT × Lex
  | 0, lex => (none, lex)
  | fuel + 1, lex =>
      let lex := lexScan long strtod lex
      if lex.token = .char 93 then (some jsonArray, lex) else parseElements fuel jsonArray lex

/-- The loop of `parse_array`. -/
def parseElements : Nat → JsonT → Lex → Option JsonT × Lex
  | 0, _, lex => (none, lex)
  | fuel + 1, array, lex =>
      if lex.token = .eof then (none, errorSet lex (ascii "']' expected"))
      else
        match parseValue fuel lex with
        | (none, lex) => (none, lex)
        | (some elem, lex) =>
            match jsonArrayAppendNew array elem with
            | none => (none, lex)
            | some array =>
                let lex := lexScan long strtod lex
                if lex.token = .char 44 then parseElements fuel array (lexScan long strtod lex)
                else if lex.token = .char 93 then (some array, lex)
                else (none, errorSet lex (ascii "']' expected"))

end

def parseJson (fuel : Nat) (lex : Lex) : Option JsonT × Lex :=
  let lex := lexScan long strtod { lex with error := ⟨[], -1⟩ }
  if lex.token ≠ .char 91 ∧ lex.token ≠ .char 123 then
    (none, errorSet lex (ascii "'[' or '\x7b' expected"))
  else parseValue long strtod fuel lex

/-- A string ends at its terminator. -/
abbrev CString := { s : Bytes // 0 ∉ s }

/-- `json_loads` behind `parse_json`. -/
def loadsEnd (parsed : Option JsonT × Lex) : Option JsonT × JsonError :=
  match parsed with
  | (none, lex) => (none, lex.error)
  | (some result, lex) =>
      let lex := lexScan long strtod lex
      if lex.token ≠ .eof then (none, (errorSet lex (ascii "end of file expected")).error)
      else (some result, lex.error)

/-- `erange` is `errno` before the call. -/
def jsonLoads (erange : Bool) (string : CString) : Option JsonT × JsonError :=
  let lex : Lex := ⟨⟨string.1, [], 0, 0⟩, [], .invalid, 1, ⟨[], -1⟩, erange⟩
  loadsEnd long strtod (parseJson long strtod (4 * string.1.length + 4) lex)

end

end AlphaMiner.Jansson
