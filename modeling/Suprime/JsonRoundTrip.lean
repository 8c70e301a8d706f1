import Suprime.JsonText

namespace Suprime
set_option autoImplicit true

/-- The surrogates that stand for a character in JSON. -/
def units (c : CodePoint) : List CodePoint :=
  if c.val < 65536 then [c]
  else [Fin.ofNat _ (55296 + (c.val - 65536) / 1024), Fin.ofNat _ (56320 + (c.val - 65536) % 1024)]

def viaJsonStr (s : PyStr) : PyStr := joinUnits (s.flatMap units)

/-- No high surrogate is directly followed by a low one. -/
def plain : PyStr → Bool
  | c :: d :: t => !(isHigh c && isLow d) && plain (d :: t)
  | _ => true

def joinPair (c d : CodePoint) : CodePoint :=
  Fin.ofNat _ (65536 + (c.val - 55296) * 1024 + (d.val - 56320))

theorem isLow_of_astral {d : CodePoint} (h : ¬ d.val < 65536) : isLow d = false := by
  have hle : ¬ d.val ≤ 57343 := by omega
  simp [isLow, hle]

theorem isHigh_of_astral {d : CodePoint} (h : ¬ d.val < 65536) : isHigh d = false := by
  have hle : ¬ d.val ≤ 56319 := by omega
  simp [isHigh, hle]

theorem joinUnits_astral {c : CodePoint} (h : ¬ c.val < 65536) (t : List CodePoint) :
    joinUnits (units c ++ t) = c :: joinUnits t := by
  have hlt := c.isLt
  have hdiv : (c.val - 65536) / 1024 < 1024 := by omega
  have hmod : (c.val - 65536) % 1024 < 1024 := Nat.mod_lt _ (by decide)
  have hhigh : (Fin.ofNat 1114112 (55296 + (c.val - 65536) / 1024)).val =
      55296 + (c.val - 65536) / 1024 := Nat.mod_eq_of_lt (by omega)
  have hlow : (Fin.ofNat 1114112 (56320 + (c.val - 65536) % 1024)).val =
      56320 + (c.val - 65536) % 1024 := Nat.mod_eq_of_lt (by omega)
  have hval : 65536 + (55296 + (c.val - 65536) / 1024 - 55296) * 1024 +
      (56320 + (c.val - 65536) % 1024 - 56320) = c.val := by omega
  have hpair : (isHigh (Fin.ofNat _ (55296 + (c.val - 65536) / 1024)) &&
      isLow (Fin.ofNat _ (56320 + (c.val - 65536) % 1024))) = true := by
    simp only [isHigh, isLow, hhigh, hlow, Bool.and_eq_true, decide_eq_true_eq]
    omega
  rw [units, if_neg h, List.cons_append, List.cons_append, List.nil_append, joinUnits,
    if_pos hpair, hhigh, hlow, hval, Fin.ofNat_val_eq_self]

theorem viaJsonStr_cons_cons (c d : CodePoint) (t : PyStr) :
    viaJsonStr (c :: d :: t) =
      if isHigh c && isLow d then joinPair c d :: viaJsonStr t else c :: viaJsonStr (d :: t) := by
  unfold viaJsonStr
  rw [List.flatMap_cons]
  by_cases hc : c.val < 65536
  · rw [units, if_pos hc, List.singleton_append]
    by_cases hd : d.val < 65536
    · rw [List.flatMap_cons, units, if_pos hd, List.singleton_append, joinUnits]
      rfl
    · have hlow := isLow_of_astral hd
      have hlt := d.isLt
      have hdiv : (d.val - 65536) / 1024 < 1024 := by omega
      have hnotlow : isLow (Fin.ofNat _ (55296 + (d.val - 65536) / 1024)) = false := by
        have hval : (Fin.ofNat 1114112 (55296 + (d.val - 65536) / 1024)).val =
            55296 + (d.val - 65536) / 1024 := Nat.mod_eq_of_lt (by omega)
        have hle : ¬ 56320 ≤ 55296 + (d.val - 65536) / 1024 := by omega
        simp only [isLow, hval, Bool.and_eq_false_iff, decide_eq_false_iff_not]
        exact .inl hle
      rw [List.flatMap_cons, units, if_neg hd, List.cons_append, joinUnits, hnotlow, hlow]
      simp
  · have hhigh := isHigh_of_astral hc
    rw [joinUnits_astral hc, hhigh]
    rfl

theorem viaJsonStr_singleton (c : CodePoint) : viaJsonStr [c] = [c] := by
  unfold viaJsonStr
  rw [List.flatMap_cons, List.flatMap_nil]
  by_cases hc : c.val < 65536
  · rw [units, if_pos hc]
    rfl
  · exact joinUnits_astral hc []

theorem length_viaJsonStr_le (s : PyStr) : (viaJsonStr s).length ≤ s.length := by
  induction s using joinUnits.induct with
  | case1 => exact le_rfl
  | case2 c => rw [viaJsonStr_singleton]
  | case3 c d t h ih =>
    rw [viaJsonStr_cons_cons, if_pos h]
    simp only [List.length_cons]
    omega
  | case4 c d t h ih =>
    rw [viaJsonStr_cons_cons, if_neg h]
    simp only [List.length_cons] at ih ⊢
    omega

theorem viaJsonStr_eq_self_iff (s : PyStr) : viaJsonStr s = s ↔ plain s = true := by
  induction s using joinUnits.induct with
  | case1 => exact iff_of_true rfl rfl
  | case2 c => exact iff_of_true (viaJsonStr_singleton c) rfl
  | case3 c d t h ih =>
    rw [viaJsonStr_cons_cons, if_pos h]
    refine iff_of_false ?_ ?_
    · intro he
      have hlen := congrArg List.length he
      have hle := length_viaJsonStr_le t
      simp only [List.length_cons] at hlen
      omega
    · simp [plain, h]
  | case4 c d t h ih =>
    rw [viaJsonStr_cons_cons, if_neg h, plain, List.cons.injEq, ih]
    simp [h]

theorem hexVal_digitChar : ∀ d < 16, hexVal (Nat.digitChar d) = some d := by
  decide

theorem hex4_digitChars {n : ℕ} (h : n < 65536) :
    hex4 (Nat.digitChar (n / 4096 % 16)) (Nat.digitChar (n / 256 % 16))
      (Nat.digitChar (n / 16 % 16)) (Nat.digitChar (n % 16)) = some (Fin.ofNat _ n) := by
  have hsum : (((n / 4096 % 16) * 16 + n / 256 % 16) * 16 + n / 16 % 16) * 16 + n % 16 = n := by
    omega
  simp only [hex4, hexVal_digitChar _ (Nat.mod_lt _ (by decide : 0 < 16)), Option.bind_eq_bind,
    Option.bind_some, hsum]

theorem scanUnits_u4 {n : ℕ} (h : n < 65536) (t : Text) :
    scanUnits (u4 n ++ t) = prepend [Fin.ofNat _ n] (scanUnits t) := by
  simp only [u4, List.cons_append, List.nil_append]
  rw [scanUnits, if_neg (by decide), if_pos rfl, scanEscape, if_pos rfl, scanHex,
    hex4_digitChars h]
  rfl

theorem scanUnits_short {e : Char} {u : CodePoint} (he : e ≠ 'u') (hu : unescape e = some u)
    (t : Text) : scanUnits ('\\' :: e :: t) = prepend [u] (scanUnits t) := by
  rw [scanUnits, if_neg (by decide), if_pos rfl, scanEscape, if_neg he, hu]
  rfl

theorem ascii_ofNat {n : ℕ} (hn : n < 127) : (Char.ofNat n).toNat = n := by
  have hall : ∀ n : Fin 127, (Char.ofNat n.val).toNat = n.val := by decide
  exact hall ⟨n, hn⟩

theorem prepend_append (us vs : List CodePoint) (o : Option (PyStr × Text)) :
    prepend us (prepend vs o) = prepend (us ++ vs) o := by
  cases o with
  | none => rfl
  | some x => simp [prepend]

theorem scanUnits_escape (c : CodePoint) (t : Text) :
    scanUnits (escape c ++ t) = prepend (units c) (scanUnits t) := by
  have hof : Fin.ofNat 1114112 c.val = c := Fin.ofNat_val_eq_self c
  have hshort : ∀ n < 65536, c.val = n → units c = [Fin.ofNat _ n] := by
    intro n hn hc
    subst hc
    rw [units, if_pos hn, hof]
  unfold escape
  split
  · rename_i h
    rw [hshort 34 (by decide) h]
    exact scanUnits_short (by decide) rfl t
  split
  · rename_i h
    rw [hshort 92 (by decide) h]
    exact scanUnits_short (by decide) rfl t
  split
  · rename_i h
    rw [hshort 10 (by decide) h]
    exact scanUnits_short (by decide) rfl t
  split
  · rename_i h
    rw [hshort 13 (by decide) h]
    exact scanUnits_short (by decide) rfl t
  split
  · rename_i h
    rw [hshort 9 (by decide) h]
    exact scanUnits_short (by decide) rfl t
  split
  · rename_i h
    rw [hshort 12 (by decide) h]
    exact scanUnits_short (by decide) rfl t
  split
  · rename_i h
    rw [hshort 8 (by decide) h]
    exact scanUnits_short (by decide) rfl t
  split
  · rename_i h34 h92 _ _ _ _ _ h
    have hval := ascii_ofNat (n := c.val) (by omega)
    have hq : Char.ofNat c.val ≠ '"' := by
      intro he
      rw [he] at hval
      exact h34 hval.symm
    have hb : Char.ofNat c.val ≠ '\\' := by
      intro he
      rw [he] at hval
      exact h92 hval.symm
    have hlow : ¬ (Char.ofNat c.val).toNat < 32 := by
      rw [hval]
      omega
    rw [hshort c.val (by omega) rfl, List.cons_append, List.nil_append, scanUnits, if_neg hq,
      if_neg hb, if_neg hlow, pyChar, hval]
  split
  · rename_i h
    rw [hshort c.val h rfl]
    exact scanUnits_u4 h t
  · rename_i h
    have hlt := c.isLt
    rw [units, if_neg h, List.append_assoc, scanUnits_u4 (by omega), scanUnits_u4 (by omega),
      prepend_append]
    rfl

theorem scanUnits_flatMap (s : PyStr) (t : Text) :
    scanUnits (s.flatMap escape ++ '"' :: t) = some (s.flatMap units, t) := by
  induction s with
  | nil =>
    change scanUnits ('"' :: t) = _
    rw [scanUnits, if_pos rfl]
    rfl
  | cons c s ih =>
    rw [List.flatMap_cons, List.append_assoc, scanUnits_escape, ih]
    rfl

theorem NumberLit.toInt_ofInt (i : ℤ) : (NumberLit.ofInt i).toInt = i := by
  by_cases hi : i < 0
  · simp only [NumberLit.toInt, NumberLit.ofInt, hi, decide_true, if_true]
    omega
  · simp only [NumberLit.toInt, NumberLit.ofInt, hi, decide_false, Bool.false_eq_true, if_false]
    omega

theorem NumberLit.head_text (l : NumberLit) :
    ∃ c t, l.text = c :: t ∧ (c = '-' ∨ c.isDigit = true) := by
  obtain ⟨neg, n, frac, exp⟩ := l
  cases neg with
  | true => exact ⟨'-', _, rfl, .inl rfl⟩
  | false =>
    cases hd : Nat.toDigits 10 n with
    | nil => exact absurd hd Nat.toDigits_ne_nil
    | cons c t =>
      have hmem : c ∈ Nat.toDigits 10 n := by
        rw [hd]
        exact List.mem_cons_self
      have hc := Nat.isDigit_of_mem_toDigits (by decide) (by decide) hmem
      refine ⟨c, t ++ (fracText frac ++ expText exp), ?_, .inr hc⟩
      simp [NumberLit.text, hd]

/-- The characters that a value can begin with. -/
def isValueHead (c : Char) : Bool :=
  c.isDigit || c = '-' || c = '"' || c = '[' || c = '\x7b' || c = 'n' || c = 't' || c = 'f' ||
    c = 'N' || c = 'I'

theorem not_space_of_valueHead (h : isValueHead c = true) : isJsonSpace c = false := by
  cases hs : isJsonSpace c with
  | false => rfl
  | true =>
    simp only [isJsonSpace, Bool.or_eq_true, decide_eq_true_eq] at hs
    rcases hs with ((rfl | rfl) | rfl) | rfl <;> exact absurd h (by decide)

theorem ne_close_of_valueHead (h : isValueHead c = true) : c ≠ ']' := by
  rintro rfl
  exact absurd h (by decide)

theorem valueHead_of_number (h : c = '-' ∨ c.isDigit = true) : isValueHead c = true := by
  rcases h with rfl | h
  · rfl
  · simp [isValueHead, h]

section
variable [FiniteFloat F]

theorem head_dumpsFloat (f : PyFloat F) :
    ∃ c t, dumpsFloat f = c :: t ∧ isValueHead c = true := by
  cases f with
  | finite f =>
    obtain ⟨c, t, hc, hd⟩ := (FiniteFloat.lit f).head_text
    exact ⟨c, t, hc, valueHead_of_number hd⟩
  | inf neg => cases neg <;> exact ⟨_, _, rfl, rfl⟩
  | nan => exact ⟨_, _, rfl, rfl⟩

theorem head_dumps (v : PyValue F) : ∃ c t, dumps v = c :: t ∧ isValueHead c = true := by
  cases v with
  | none => exact ⟨_, _, rfl, rfl⟩
  | bool b => cases b <;> exact ⟨_, _, rfl, rfl⟩
  | int i =>
    obtain ⟨c, t, hc, hd⟩ := (NumberLit.ofInt i).head_text
    exact ⟨c, t, by rw [dumps, dumpsInt, hc], valueHead_of_number hd⟩
  | float f =>
    obtain ⟨c, t, hc, hd⟩ := head_dumpsFloat f
    exact ⟨c, t, by rw [dumps, hc], hd⟩
  | str s => exact ⟨'"', _, by rw [dumps]; rfl, rfl⟩
  | list l => cases l <;> exact ⟨'[', _, by rw [dumps], rfl⟩
  | tuple l => cases l <;> exact ⟨'[', _, by rw [dumps], rfl⟩
  | dict l =>
    cases l with
    | nil => exact ⟨'\x7b', _, by rw [dumps], rfl⟩
    | cons p l => exact ⟨'\x7b', _, by rw [dumps], rfl⟩

theorem skipWs_dumps (v : PyValue F) (t : Text) : skipWs (dumps v ++ t) = dumps v ++ t := by
  obtain ⟨c, u, hc, hhead⟩ := head_dumps v
  rw [hc, List.cons_append, skipWs, List.dropWhile_cons, not_space_of_valueHead hhead]
  rfl

theorem length_dumps_pos (v : PyValue F) : 0 < (dumps v).length := by
  obtain ⟨c, t, hc, _⟩ := head_dumps v
  rw [hc]
  exact Nat.succ_pos _

end

section
variable [FiniteFloat F] [DecidableEq F]

mutual

/-- A value after it went through JSON: tuples are lists, keys are strings, surrogate pairs are
joined. -/
def viaJson : PyValue F → PyValue F
  | .none => .none
  | .bool b => .bool b
  | .int i => .int i
  | .float f => .float f
  | .str s => .str (viaJsonStr s)
  | .list l => .list (viaJsonList l)
  | .tuple l => .list (viaJsonList l)
  | .dict l => .dict (ofPairs (viaJsonItems l))

def viaJsonList : List (PyValue F) → List (PyValue F)
  | [] => []
  | v :: l => viaJson v :: viaJsonList l

def viaJsonItems : List (PyKey F × PyValue F) → List (PyKey F × PyValue F)
  | [] => []
  | (k, v) :: l => (.str (viaJsonStr (keyStr k)), viaJson v) :: viaJsonItems l

end

theorem scanOnce_number {l : NumberLit} {t : Text} (ht : Ends t) (n : ℕ) :
    scanOnce (n + 1) (l.text ++ t) = some
      (if l.isInt then .int l.toInt else .float (FiniteFloat.ofLit l : PyFloat F), t) := by
  have hscan := scanNumber_text l ht
  obtain ⟨c, u, hc, hd⟩ := l.head_text
  rw [hc, List.cons_append] at hscan ⊢
  have hq : c ≠ '"' ∧ c ≠ '\x7b' ∧ c ≠ '[' := by
    rcases hd with rfl | hd
    · decide
    · refine ⟨?_, ?_, ?_⟩ <;> rintro rfl <;> exact absurd hd (by decide)
  rw [scanOnce, if_neg hq.1, if_neg hq.2.1, if_neg hq.2.2, scanConstant, hscan]

theorem scanOnce_float (f : PyFloat F) {t : Text} (ht : Ends t) (n : ℕ) :
    scanOnce (n + 1) (dumpsFloat f ++ t) = some (.float f, t) := by
  cases f with
  | finite f =>
    rw [dumpsFloat, scanOnce_number ht, FiniteFloat.lit_isFloat, FiniteFloat.ofLit_lit]
    rfl
  | inf neg =>
    cases neg
    · rfl
    · rfl
  | nan => rfl

section
omit [DecidableEq F]

theorem ends_dumpsRest (l : List (PyValue F)) (t : Text) : Ends (dumpsRest l ++ t) := by
  cases l with
  | nil =>
    rw [dumpsRest]
    exact ⟨rfl, by decide⟩
  | cons v l =>
    rw [dumpsRest]
    exact ⟨rfl, by decide⟩

theorem ends_dumpsItemsRest (l : List (PyKey F × PyValue F)) (t : Text) :
    Ends (dumpsItemsRest l ++ t) := by
  cases l with
  | nil =>
    rw [dumpsItemsRest]
    exact ⟨rfl, by decide⟩
  | cons p l =>
    rw [dumpsItemsRest]
    exact ⟨rfl, by decide⟩

end

theorem skipWs_of_not_space {c : Char} (h : isJsonSpace c = false) (t : Text) :
    skipWs (c :: t) = c :: t := by
  rw [skipWs, List.dropWhile_cons, h]
  rfl

theorem scanOnce_list {t u : Text} (ht : skipWs t = c :: u) (hc : c ≠ ']')
    (h : scanList n (c :: u) = some ((vs : List (PyValue F)), r)) :
    scanOnce (n + 1) ('[' :: t) = some (.list vs, r) := by
  rw [scanOnce, if_neg (by decide), if_neg (by decide), if_pos rfl, ht]
  dsimp only
  rw [if_neg hc, h]
  rfl

theorem scanOnce_dict {t u : Text} (ht : skipWs t = c :: u) (hc : c ≠ '\x7d')
    (h : scanItems n (c :: u) = some ((ps : List (PyKey F × PyValue F)), r)) :
    scanOnce (n + 1) ('\x7b' :: t) = some (.dict (ofPairs ps), r) := by
  rw [scanOnce, if_neg (by decide), if_pos rfl, ht]
  dsimp only
  rw [if_neg hc, h]
  rfl

theorem scanOnce_list_dumps (v : PyValue F) {vs : List (PyValue F)} {t : Text}
    (h : scanList n (dumps v ++ t) = some (vs, r)) :
    scanOnce (n + 1) ('[' :: (dumps v ++ t)) = some (.list vs, r) := by
  have hskip := skipWs_dumps v t
  obtain ⟨c, u, hc, hhead⟩ := head_dumps v
  rw [hc, List.cons_append] at h hskip ⊢
  exact scanOnce_list hskip (ne_close_of_valueHead hhead) h

theorem scanOnce_dict_dumps (s : PyStr) {ps : List (PyKey F × PyValue F)} {t : Text}
    (h : scanItems n (dumpsStr s ++ t) = some (ps, r)) :
    scanOnce (n + 1) ('\x7b' :: (dumpsStr s ++ t)) = some (.dict (ofPairs ps), r) :=
  scanOnce_dict (skipWs_of_not_space rfl _) (by decide) h

theorem scanList_step {t u : Text} (hv : scanOnce n t = some ((v : PyValue F), ',' :: u))
    (hl : scanList n (skipWs u) = some (vs, r)) :
    scanList (n + 1) t = some (v :: vs, r) := by
  have hskip : skipWs (',' :: u) = ',' :: u := skipWs_of_not_space rfl u
  rw [scanList, hv]
  simp only [Option.bind_eq_bind, Option.bind_some, hskip, hl]
  rfl

theorem scanList_last {t u : Text} (hv : scanOnce n t = some ((v : PyValue F), ']' :: u)) :
    scanList (n + 1) t = some ([v], u) := by
  rw [scanList, hv]
  rfl

theorem scanItems_step {s : PyStr} {t u : Text}
    (hv : scanOnce n (skipWs t) = some ((v : PyValue F), ',' :: u))
    (hl : scanItems n (skipWs u) = some (ps, r)) :
    scanItems (n + 1) (dumpsStr s ++ ':' :: t) =
      some ((.str (viaJsonStr s), v) :: ps, r) := by
  have hscan := scanUnits_flatMap s (':' :: t)
  rw [dumpsStr, List.cons_append, List.append_assoc, List.cons_append, List.nil_append, scanItems,
    if_pos rfl, hscan]
  have hcolon : skipWs (':' :: t) = ':' :: t := skipWs_of_not_space rfl t
  have hcomma : skipWs (',' :: u) = ',' :: u := skipWs_of_not_space rfl u
  simp only [Option.bind_eq_bind, Option.bind_some, hcolon, if_true, hv, hcomma, hl]
  rfl

theorem scanItems_last {s : PyStr} {t u : Text}
    (hv : scanOnce n (skipWs t) = some ((v : PyValue F), '\x7d' :: u)) :
    scanItems (n + 1) (dumpsStr s ++ ':' :: t) = some ([(.str (viaJsonStr s), v)], u) := by
  have hscan := scanUnits_flatMap s (':' :: t)
  rw [dumpsStr, List.cons_append, List.append_assoc, List.cons_append, List.nil_append, scanItems,
    if_pos rfl, hscan]
  have hcolon : skipWs (':' :: t) = ':' :: t := skipWs_of_not_space rfl t
  have hclose : skipWs ('\x7d' :: u) = '\x7d' :: u := skipWs_of_not_space rfl u
  simp only [Option.bind_eq_bind, Option.bind_some, hcolon, if_true, hv, hclose]
  rfl

mutual

theorem scanOnce_dumps : (v : PyValue F) → (n : ℕ) → (t : Text) → (dumps v).length ≤ n →
    Ends t → scanOnce n (dumps v ++ t) = some (viaJson v, t)
  | v, 0, t, hn, _ => absurd hn (Nat.not_le.2 (length_dumps_pos v))
  | .none, n + 1, t, _, _ => by
    rw [dumps, viaJson]
    rfl
  | .bool true, n + 1, t, _, _ => by
    rw [dumps, viaJson]
    rfl
  | .bool false, n + 1, t, _, _ => by
    rw [dumps, viaJson]
    rfl
  | .int i, n + 1, t, _, ht => by
    rw [dumps, viaJson, dumpsInt, scanOnce_number ht, NumberLit.toInt_ofInt]
    rfl
  | .float f, n + 1, t, _, ht => by
    rw [dumps, viaJson]
    exact scanOnce_float f ht n
  | .str s, n + 1, t, _, _ => by
    have hscan := scanUnits_flatMap s t
    rw [dumps, viaJson, dumpsStr, List.cons_append, List.append_assoc, List.cons_append,
      List.nil_append, scanOnce, if_pos rfl, hscan]
    rfl
  | .list [], n + 1, t, _, _ => by
    rw [dumps, viaJson, viaJsonList]
    rfl
  | .list (v :: l), n + 1, t, hn, _ => by
    rw [dumps, List.length_cons, List.length_append] at hn
    have hlist := scanList_dumps v l n t (by omega)
    rw [dumps, viaJson, viaJsonList, List.cons_append, List.append_assoc]
    exact scanOnce_list_dumps v hlist
  | .tuple [], n + 1, t, _, _ => by
    rw [dumps, viaJson, viaJsonList]
    rfl
  | .tuple (v :: l), n + 1, t, hn, _ => by
    rw [dumps, List.length_cons, List.length_append] at hn
    have hlist := scanList_dumps v l n t (by omega)
    rw [dumps, viaJson, viaJsonList, List.cons_append, List.append_assoc]
    exact scanOnce_list_dumps v hlist
  | .dict [], n + 1, t, _, _ => by
    rw [dumps, viaJson, viaJsonItems]
    rfl
  | .dict ((k, v) :: l), n + 1, t, hn, _ => by
    rw [dumps, List.length_cons, List.length_append, List.length_cons, List.length_append] at hn
    have hitems := scanItems_dumps k v l n t (by omega)
    rw [dumps, viaJson, List.cons_append, List.append_assoc, List.cons_append, List.append_assoc]
    exact scanOnce_dict_dumps _ hitems

theorem scanList_dumps : (v : PyValue F) → (l : List (PyValue F)) → (n : ℕ) → (t : Text) →
    (dumps v).length + (dumpsRest l).length ≤ n →
    scanList n (dumps v ++ (dumpsRest l ++ t)) = some (viaJson v :: viaJsonList l, t)
  | v, l, 0, t, hn => by
    have hpos := length_dumps_pos v
    omega
  | v, [], n + 1, t, hn => by
    rw [dumpsRest, List.length_singleton] at hn
    have hv := scanOnce_dumps v n (dumpsRest ([] : List (PyValue F)) ++ t) (by omega)
      (ends_dumpsRest [] t)
    rw [dumpsRest] at hv ⊢
    rw [viaJsonList]
    exact scanList_last hv
  | v, w :: l, n + 1, t, hn => by
    rw [dumpsRest, List.length_cons, List.length_append] at hn
    have hv := scanOnce_dumps v n (dumpsRest (w :: l) ++ t) (by omega) (ends_dumpsRest (w :: l) t)
    have hl := scanList_dumps w l n t (by omega)
    rw [← skipWs_dumps w] at hl
    rw [dumpsRest, List.cons_append, List.append_assoc] at hv ⊢
    rw [viaJsonList]
    exact scanList_step hv hl

theorem scanItems_dumps : (k : PyKey F) → (v : PyValue F) → (l : List (PyKey F × PyValue F)) →
    (n : ℕ) → (t : Text) →
    (dumpsStr (keyStr k)).length + (dumps v).length + (dumpsItemsRest l).length ≤ n →
    scanItems n (dumpsStr (keyStr k) ++ ':' :: (dumps v ++ (dumpsItemsRest l ++ t))) =
      some (viaJsonItems ((k, v) :: l), t)
  | k, v, l, 0, t, hn => by
    have hpos := length_dumps_pos v
    omega
  | k, v, [], n + 1, t, hn => by
    rw [dumpsItemsRest, List.length_singleton] at hn
    have hv := scanOnce_dumps v n (dumpsItemsRest ([] : List (PyKey F × PyValue F)) ++ t)
      (by omega) (ends_dumpsItemsRest [] t)
    rw [← skipWs_dumps v] at hv
    rw [dumpsItemsRest] at hv ⊢
    rw [viaJsonItems, viaJsonItems]
    exact scanItems_last hv
  | k, v, (k', w) :: l, n + 1, t, hn => by
    rw [dumpsItemsRest, List.length_cons, List.length_append, List.length_cons,
      List.length_append] at hn
    have hv := scanOnce_dumps v n (dumpsItemsRest ((k', w) :: l) ++ t) (by omega)
      (ends_dumpsItemsRest ((k', w) :: l) t)
    have hl := scanItems_dumps k' w l n t (by omega)
    rw [← skipWs_dumps v] at hv
    rw [dumpsItemsRest, List.cons_append, List.append_assoc, List.cons_append,
      List.append_assoc] at hv ⊢
    rw [viaJsonItems]
    exact scanItems_step hv hl

end

theorem loads_dumps (v : PyValue F) : loads (dumps v) = some (viaJson v) := by
  have hscan := scanOnce_dumps v (2 * (dumps v).length + 2) [] (by omega) trivial
  have hskip := skipWs_dumps v []
  rw [List.append_nil] at hscan hskip
  rw [loads, hskip, hscan]
  rfl

end

end Suprime
