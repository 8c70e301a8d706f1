import Suprime.PyValue

namespace Suprime
set_option autoImplicit true

/-- `\uXXXX` with the digits of `n`. -/
def u4 (n : ℕ) : Text :=
  ['\\', 'u', Nat.digitChar (n / 4096 % 16), Nat.digitChar (n / 256 % 16),
    Nat.digitChar (n / 16 % 16), Nat.digitChar (n % 16)]

/-- A character as `json.dumps` writes it, in ASCII. -/
def escape (c : CodePoint) : Text :=
  if c.val = 34 then ['\\', '"']
  else if c.val = 92 then ['\\', '\\']
  else if c.val = 10 then ['\\', 'n']
  else if c.val = 13 then ['\\', 'r']
  else if c.val = 9 then ['\\', 't']
  else if c.val = 12 then ['\\', 'f']
  else if c.val = 8 then ['\\', 'b']
  else if 32 ≤ c.val ∧ c.val ≤ 126 then [Char.ofNat c.val]
  else if c.val < 65536 then u4 c.val
  else u4 (55296 + (c.val - 65536) / 1024) ++ u4 (56320 + (c.val - 65536) % 1024)

def dumpsStr (s : PyStr) : Text := '"' :: (s.flatMap escape ++ ['"'])

def dumpsInt (i : ℤ) : Text := (NumberLit.ofInt i).text

section
variable [FiniteFloat F]

def dumpsFloat : PyFloat F → Text
  | .finite f => (FiniteFloat.lit f).text
  | .inf false => ['I', 'n', 'f', 'i', 'n', 'i', 't', 'y']
  | .inf true => ['-', 'I', 'n', 'f', 'i', 'n', 'i', 't', 'y']
  | .nan => ['N', 'a', 'N']

/-- The string that a key becomes. -/
def keyStr : PyKey F → PyStr
  | .none => pyStr ['n', 'u', 'l', 'l']
  | .bool true => pyStr ['t', 'r', 'u', 'e']
  | .bool false => pyStr ['f', 'a', 'l', 's', 'e']
  | .int i => pyStr (dumpsInt i)
  | .float f => pyStr (dumpsFloat f)
  | .str s => s

mutual

/-- `json.dumps` with the separators `,` and `:`. The limits of the interpreter, on nesting and on
the digits of an int, are taken to be larger than what occurs, here, in `loads` and in `repr`. -/
def dumps : PyValue F → Text
  | .none => ['n', 'u', 'l', 'l']
  | .bool true => ['t', 'r', 'u', 'e']
  | .bool false => ['f', 'a', 'l', 's', 'e']
  | .int i => dumpsInt i
  | .float f => dumpsFloat f
  | .str s => dumpsStr s
  | .list [] => ['[', ']']
  | .list (v :: l) => '[' :: (dumps v ++ dumpsRest l)
  | .tuple [] => ['[', ']']
  | .tuple (v :: l) => '[' :: (dumps v ++ dumpsRest l)
  | .dict [] => ['\x7b', '\x7d']
  | .dict ((k, v) :: l) => '\x7b' :: (dumpsStr (keyStr k) ++ ':' :: (dumps v ++ dumpsItemsRest l))

/-- The elements of a list after the first, and its end. -/
def dumpsRest : List (PyValue F) → Text
  | [] => [']']
  | v :: l => ',' :: (dumps v ++ dumpsRest l)

def dumpsItemsRest : List (PyKey F × PyValue F) → Text
  | [] => ['\x7d']
  | (k, v) :: l => ',' :: (dumpsStr (keyStr k) ++ ':' :: (dumps v ++ dumpsItemsRest l))

end

end

def hexVal (c : Char) : Option ℕ :=
  if c.isDigit then some (c.toNat - 48)
  else if 97 ≤ c.toNat ∧ c.toNat ≤ 102 then some (c.toNat - 87)
  else if 65 ≤ c.toNat ∧ c.toNat ≤ 70 then some (c.toNat - 55)
  else none

def hex4 (w x y z : Char) : Option CodePoint := do
  let a ← hexVal w
  let b ← hexVal x
  let c ← hexVal y
  let d ← hexVal z
  some (Fin.ofNat _ (((a * 16 + b) * 16 + c) * 16 + d))

def unescape (c : Char) : Option CodePoint :=
  if c = '"' then some 34
  else if c = '\\' then some 92
  else if c = '/' then some 47
  else if c = 'b' then some 8
  else if c = 'f' then some 12
  else if c = 'n' then some 10
  else if c = 'r' then some 13
  else if c = 't' then some 9
  else none

def prepend (us : List CodePoint) (o : Option (PyStr × Text)) : Option (PyStr × Text) :=
  o.map (fun x => (us ++ x.1, x.2))

mutual

/-- The characters up to the closing quote, surrogates still apart. -/
def scanUnits : Text → Option (PyStr × Text)
  | [] => none
  | c :: t =>
    if c = '"' then some ([], t)
    else if c = '\\' then scanEscape t
    else if c.toNat < 32 then none
    else prepend [pyChar c] (scanUnits t)

def scanEscape : Text → Option (PyStr × Text)
  | [] => none
  | e :: t =>
    if e = 'u' then scanHex t
    else (unescape e).bind (fun u => prepend [u] (scanUnits t))

def scanHex : Text → Option (PyStr × Text)
  | w :: x :: y :: z :: t => (hex4 w x y z).bind (fun u => prepend [u] (scanUnits t))
  | _ => none

end

/-- A high surrogate and a low one that follows it become one character. -/
def joinUnits : List CodePoint → PyStr
  | [] => []
  | [c] => [c]
  | c :: d :: t =>
    if isHigh c && isLow d then
      Fin.ofNat _ (65536 + (c.val - 55296) * 1024 + (d.val - 56320)) :: joinUnits t
    else c :: joinUnits (d :: t)

def isJsonSpace (c : Char) : Bool := c = ' ' || c = '\t' || c = '\n' || c = '\r'

def skipWs (t : Text) : Text := t.dropWhile isJsonSpace

/-- What follows a word at the front of a text. -/
def afterWord (word t : Text) : Option Text :=
  if word.isPrefixOf t then some (t.drop word.length) else none

section
variable [FiniteFloat F] [DecidableEq F]

def scanConstant (t : Text) : Option (PyValue F × Text) :=
  match scanNumber t with
  | some (l, r) => some (if l.isInt then .int l.toInt else .float (FiniteFloat.ofLit l), r)
  | none =>
    match afterWord ['n', 'u', 'l', 'l'] t with
    | some r => some (.none, r)
    | none =>
    match afterWord ['t', 'r', 'u', 'e'] t with
    | some r => some (.bool true, r)
    | none =>
    match afterWord ['f', 'a', 'l', 's', 'e'] t with
    | some r => some (.bool false, r)
    | none =>
    match afterWord ['N', 'a', 'N'] t with
    | some r => some (.float .nan, r)
    | none =>
    match afterWord ['I', 'n', 'f', 'i', 'n', 'i', 't', 'y'] t with
    | some r => some (.float (.inf false), r)
    | none =>
    match afterWord ['-', 'I', 'n', 'f', 'i', 'n', 'i', 't', 'y'] t with
    | some r => some (.float (.inf true), r)
    | none => none

mutual

/-- `scan_once`: the value at the front of a text. The text is no longer than `fuel`. -/
def scanOnce : ℕ → Text → Option (PyValue F × Text)
  | 0, _ => none
  | _ + 1, [] => none
  | n + 1, c :: t =>
    if c = '"' then do
      let (us, r) ← scanUnits t
      some (.str (joinUnits us), r)
    else if c = '\x7b' then
      match skipWs t with
      | [] => none
      | d :: u =>
        if d = '\x7d' then some (.dict [], u)
        else do
          let (ps, r) ← scanItems n (d :: u)
          some (.dict (ofPairs ps), r)
    else if c = '[' then
      match skipWs t with
      | [] => none
      | d :: u =>
        if d = ']' then some (.list [], u)
        else do
          let (vs, r) ← scanList n (d :: u)
          some (.list vs, r)
    else scanConstant (c :: t)

def scanList : ℕ → Text → Option (List (PyValue F) × Text)
  | 0, _ => none
  | n + 1, t => do
    let (v, u) ← scanOnce n t
    match skipWs u with
    | [] => none
    | c :: u =>
      if c = ']' then some ([v], u)
      else if c = ',' then do
        let (vs, r) ← scanList n (skipWs u)
        some (v :: vs, r)
      else none

def scanItems : ℕ → Text → Option (List (PyKey F × PyValue F) × Text)
  | 0, _ => none
  | _ + 1, [] => none
  | n + 1, q :: t =>
    if q = '"' then do
      let (us, u) ← scanUnits t
      match skipWs u with
      | [] => none
      | c :: u =>
        if c = ':' then do
          let (v, u) ← scanOnce n (skipWs u)
          match skipWs u with
          | [] => none
          | c :: u =>
            if c = '\x7d' then some ([(.str (joinUnits us), v)], u)
            else if c = ',' then do
              let (ps, r) ← scanItems n (skipWs u)
              some ((.str (joinUnits us), v) :: ps, r)
            else none
        else none
    else none

end

/-- `json.loads`; `none` stands for `JSONDecodeError`. The limits of the interpreter are left out,
as in `dumps`. -/
def loads (t : Text) : Option (PyValue F) :=
  match scanOnce (2 * t.length + 2) (skipWs t) with
  | some (v, r) => if skipWs r = [] then some v else none
  | none => none

end

end Suprime
