import Suprime.AuthRoundTrip

namespace Suprime
set_option autoImplicit true

section
variable [DecidableEq F] [RationalFloat F]

section
omit [DecidableEq F]

theorem number_eq_str_iff (k : PyKey F) (s : PyStr) : k.number = .str s ↔ k = .str s := by
  cases k with
  | none => exact iff_of_false (fun h => by cases h) (fun h => by cases h)
  | bool b => exact iff_of_false (fun h => by cases h) (fun h => by cases h)
  | int i => exact iff_of_false (fun h => by cases h) (fun h => by cases h)
  | str t => exact Iff.rfl
  | float f =>
    refine iff_of_false ?_ (fun h => by cases h)
    cases f with
    | finite f =>
      rw [PyKey.number]
      split <;> exact fun h => by cases h
    | inf b => exact fun h => by cases h
    | nan => exact fun h => by cases h

end

theorem dictSet_str (s : PyStr) (v : PyValue F) (l : List (PyKey F × PyValue F)) :
    dictSet (.str s) v l = assocSet (.str s) v l := by
  induction l with
  | nil => rfl
  | cons p l ih =>
    obtain ⟨a, b⟩ := p
    by_cases ha : a = .str s
    · subst ha
      rw [dictSet, if_pos rfl, assocSet, if_pos rfl]
    · have hn : a.number ≠ (PyKey.str s : PyKey F).number := fun h =>
        ha ((number_eq_str_iff a s).1 h)
      rw [dictSet, if_neg hn, ih, assocSet, if_neg ha]

theorem nodup_number_assocSet {s : PyStr} {v : PyValue F} {l : List (PyKey F × PyValue F)}
    (h : (l.map (fun p => p.1.number)).Nodup) :
    ((assocSet (.str s) v l).map (fun p => p.1.number)).Nodup := by
  rw [← dictSet_str]
  exact nodup_dictSet h

theorem number_mem_dictSet_self (k : PyKey F) (v : PyValue F) (l : List (PyKey F × PyValue F)) :
    k.number ∈ (dictSet k v l).map (fun p => p.1.number) := by
  induction l with
  | nil => exact List.mem_singleton_self _
  | cons p l ih =>
    obtain ⟨a, b⟩ := p
    by_cases ha : a.number = k.number
    · rw [dictSet, if_pos ha, List.map_cons, ← ha]
      exact List.mem_cons_self
    · rw [dictSet, if_neg ha, List.map_cons]
      exact List.mem_cons_of_mem _ ih

theorem number_mem_dictSet_of_mem {n : PyKey F} {k : PyKey F} {v : PyValue F}
    {l : List (PyKey F × PyValue F)} (h : n ∈ l.map (fun p => p.1.number)) :
    n ∈ (dictSet k v l).map (fun p => p.1.number) := by
  induction l with
  | nil => cases h
  | cons p l ih =>
    obtain ⟨a, b⟩ := p
    by_cases ha : a.number = k.number
    · rw [dictSet, if_pos ha]
      exact h
    · rw [dictSet, if_neg ha, List.map_cons]
      rcases List.mem_cons.1 h with rfl | h
      · exact List.mem_cons_self
      · exact List.mem_cons_of_mem _ (ih h)

theorem str_mem_dictFrom {s : PyStr} {l : List (PyKey F × PyValue F)}
    (h : PyKey.str s ∈ l.map Prod.fst) : PyKey.str s ∈ (dictFrom l).map Prod.fst := by
  have hnum : (PyKey.str s : PyKey F) ∈ (dictFrom l).map (fun p => p.1.number) := by
    induction l using List.reverseRecOn with
    | nil => cases h
    | append_singleton l p ih =>
      rw [dictFrom_concat]
      rw [List.map_append, List.mem_append] at h
      rcases h with h | h
      · exact number_mem_dictSet_of_mem (ih h)
      · have hp : p.1 = .str s := (List.mem_singleton.1 h).symm
        have hself := number_mem_dictSet_self p.1 p.2 (dictFrom l)
        rw [hp] at hself ⊢
        exact hself
  obtain ⟨p, hp, hk⟩ := List.mem_map.1 hnum
  exact List.mem_map.2 ⟨p, hp, (number_eq_str_iff _ _).1 hk⟩

end

section
variable [UnicodeData] [FiniteFloat F] [DecidableEq F] [RationalFloat F]

def withoutSig : PyValue F → PyValue F
  | .dict l => .dict (without sigField l)
  | v => v

section
omit [UnicodeData] [FiniteFloat F] [RationalFloat F]

theorem without_of_not_mem {s : PyStr} {l : List (PyKey F × PyValue F)}
    (h : PyKey.str s ∉ l.map Prod.fst) : without s l = l := by
  apply List.filter_eq_self.2
  intro p hp
  rw [decide_eq_true_eq]
  intro hk
  exact h (hk ▸ List.mem_map_of_mem hp)

end

section
omit [UnicodeData]

theorem dictFrom_of_native {d : List (PyKey F × PyValue F)} (h : native (.dict d) = true) :
    dictFrom d = d := by
  obtain ⟨hitems, hnodup⟩ := (viaJson_dict_eq_self_iff d).1 ((viaJson_eq_self_iff _).2 h)
  apply dictFrom_eq_self (nodup_number_of_str hnodup ?_)
  intro p hp
  rw [← hitems, viaJsonItems_eq_map] at hp
  obtain ⟨q, _, hq⟩ := List.mem_map.1 hp
  exact ⟨_, (congrArg Prod.fst hq).symm⟩

end

namespace SecureTransport

theorem send_eq {m : Message F} {d : List (PyKey F × PyValue F)} (hd : pyDict m.payload = some d)
    (h : Hmac) (key : Bytes) :
    send h key m = some { m with payload := .dict (assocSet (.str sigField)
      (.str (sign h key { m with payload := .dict d })) d) } := by
  rw [send, hd]
  rfl

theorem resend_dropped {m : Message F} {d : List (PyKey F × PyValue F)}
    (hd : (d.map (fun p => p.1.number)).Nodup) (hm : m.payload = .dict d)
    (hsig : PyKey.str sigField ∈ d.map Prod.fst) (key : Bytes) (newId now : PyValue F) :
    transmit (.marking (reprSorted (delivered m d).toDict)) key newId now m = some .dropped := by
  have hdict : pyDict m.payload = some d := by
    rw [hm, pyDict, dictFrom_eq_self hd]
  have hne : ({ m with payload := .dict d } : Message F) ≠ delivered m d := by
    intro he
    exact ((delivered_eq_iff m d).1 he.symm).2.2 hsig
  rw [transmit_eq hdict, sign_marking_ne key hne, sign_marking_self, if_neg]
  exact fun he => absurd (hexdigest_injective he) (by decide)

theorem sendAll_singleton (h : Hmac) (key : Bytes) (m : Message F) (a : Text) :
    sendAll h key m [a] = (send h key m).map (fun sent => [(a, sent)]) := by
  rw [sendAll]
  cases send h key m with
  | none => rfl
  | some sent => rfl

theorem sendAll_one_iff (m : Message F) (a : Text) (newId now : PyValue F) :
    (∀ h key, ∃ sends, sendAll h key m [a] = some sends ∧
      ∀ p ∈ sends, ∃ r, arrive h key newId now p.2 = some (.handed r) ∧
        r.payload = withoutSig m.payload) ↔
      m.HeaderNative ∧ ∃ d, m.payload = .dict d ∧ native (.dict d) = true ∧
        PyKey.str sigField ∉ d.map Prod.fst := by
  constructor
  · intro hall
    have harrive : ∀ h key, ∃ r, transmit h key newId now m = some (.handed r) ∧
        r.payload = withoutSig m.payload := by
      intro h key
      obtain ⟨sends, hsends, hp⟩ := hall h key
      rw [sendAll_singleton] at hsends
      obtain ⟨sent, hsent, rfl⟩ := Option.map_eq_some_iff.1 hsends
      obtain ⟨r, hr, hpay⟩ := hp _ (List.mem_singleton_self _)
      refine ⟨r, ?_, hpay⟩
      rw [transmit, hsent]
      exact hr
    obtain ⟨d, hd, heq⟩ := (forall_transmit_iff m newId now).1
      (fun h key => (harrive h key).imp (fun r hr => hr.1))
    obtain ⟨hhead, hnative, hsig⟩ := (delivered_eq_iff m d).1 heq
    obtain ⟨r, hr, hpay⟩ := harrive (.marking default) []
    rw [transmit_eq hd, if_pos (congrArg _ heq.symm)] at hr
    cases hr
    rw [heq] at hpay
    cases hm : m.payload with
    | dict l =>
      rw [hm] at hpay hd
      cases hd
      have hl : PyKey.str sigField ∉ l.map Prod.fst := fun h => hsig (str_mem_dictFrom h)
      simp only [withoutSig, without_of_not_mem hl, PyValue.dict.injEq] at hpay
      rw [hpay] at hnative
      exact ⟨hhead, l, rfl, hnative, hl⟩
    | _ =>
      rw [hm] at hpay
      cases hpay
  · rintro ⟨hhead, d, hm, hnative, hsig⟩ h key
    have hd : pyDict m.payload = some d := by
      rw [hm, pyDict, dictFrom_of_native hnative]
    have heq := (delivered_eq_iff m d).2 ⟨hhead, hnative, hsig⟩
    have harrive := transmit_eq hd h key newId now
    rw [if_pos (congrArg _ heq.symm), transmit, send_eq hd, Option.bind_some] at harrive
    rw [sendAll_singleton, send_eq hd, Option.map_some]
    refine ⟨_, rfl, ?_⟩
    intro p hp
    rw [List.mem_singleton] at hp
    subst hp
    refine ⟨_, harrive, ?_⟩
    rw [heq, hm, withoutSig, without_of_not_mem hsig]

theorem not_sendAll_two (m : Message F) (a b : Text) (addresses : List Text)
    (newId now : PyValue F) :
    ¬ ∀ h key, ∃ sends, sendAll h key m (a :: b :: addresses) = some sends ∧
      ∀ p ∈ sends, ∃ r, arrive h key newId now p.2 = some (.handed r) ∧
        r.payload = withoutSig m.payload := by
  intro hall
  cases hd : pyDict m.payload with
  | none =>
    obtain ⟨sends, hsends, _⟩ := hall (.marking default) []
    rw [sendAll, send, hd] at hsends
    cases hsends
  | some d =>
    let h := Hmac.marking (reprSorted (delivered m d).toDict)
    obtain ⟨sends, hsends, hp⟩ := hall h []
    rw [sendAll, send_eq hd, Option.bind_some] at hsends
    obtain ⟨rest, hrest, rfl⟩ := Option.map_eq_some_iff.1 hsends
    rw [sendAll] at hrest
    obtain ⟨sent, hsent, hrest⟩ := Option.bind_eq_some_iff.1 hrest
    obtain ⟨rest', _, rfl⟩ := Option.map_eq_some_iff.1 hrest
    obtain ⟨r, hr, _⟩ := hp (b, sent) (List.mem_cons_of_mem _ List.mem_cons_self)
    have hnodup := nodup_pyDict hd
    have hmem : PyKey.str sigField ∈ (assocSet (.str sigField)
        (.str (sign h [] { m with payload := .dict d })) d).map Prod.fst :=
      List.mem_map.2 ⟨_, (mem_assocSet_self (nodup_keys hnodup)).2 rfl, rfl⟩
    have hdrop := resend_dropped (m := { m with payload := .dict (assocSet (.str sigField)
      (.str (sign h [] { m with payload := .dict d })) d) }) (nodup_number_assocSet hnodup) rfl hmem
      [] newId now
    have hsame : delivered { m with payload := .dict (assocSet (.str sigField)
        (.str (sign h [] { m with payload := .dict d })) d) } (assocSet (.str sigField)
        (.str (sign h [] { m with payload := .dict d })) d) = delivered m d := by
      simp only [delivered, without, filter_assocSet_self]
    rw [hsame, transmit, hsent, Option.bind_some] at hdrop
    change arrive h [] newId now sent = some .dropped at hdrop
    rw [hdrop] at hr
    cases hr

end SecureTransport

/-- One message object reaches all addresses, each time with its own payload and whatever the
digest, exactly when there is at most one address and the message passes by itself: its fields and
its payload are native, and the payload is a dict without a field `_sig`. -/
theorem multi_target_sends_iff (m : Message F) (addresses : List Text) (newId now : PyValue F) :
    (∀ h key, ∃ sends, SecureTransport.sendAll h key m addresses = some sends ∧
      ∀ p ∈ sends, ∃ r, SecureTransport.arrive h key newId now p.2 = some (.handed r) ∧
        r.payload = withoutSig m.payload) ↔
      addresses = [] ∨ addresses.length = 1 ∧ m.HeaderNative ∧
        ∃ d, m.payload = .dict d ∧ native (.dict d) = true ∧
          PyKey.str sigField ∉ d.map Prod.fst := by
  cases addresses with
  | nil =>
    refine iff_of_true ?_ (.inl rfl)
    intro h key
    exact ⟨[], rfl, fun p hp => by cases hp⟩
  | cons a addresses =>
    cases addresses with
    | nil =>
      rw [SecureTransport.sendAll_one_iff]
      constructor
      · intro h
        exact .inr ⟨rfl, h⟩
      · rintro (h | ⟨_, h⟩)
        · cases h
        · exact h
    | cons b addresses =>
      refine iff_of_false (SecureTransport.not_sendAll_two m a b addresses newId now) ?_
      rintro (h | ⟨h, _⟩)
      · cases h
      · cases h

end

/-- A message of the simplest kind does not reach the second of two addresses. -/
theorem second_target_rejects :
    ¬ ∃ _ : UnicodeData, ∀ (m : Message ℕ) (addresses : List Text) (newId now : PyValue ℕ) h key,
      ∃ sends, SecureTransport.sendAll h key m addresses = some sends ∧
        ∀ p ∈ sends, ∃ r, SecureTransport.arrive h key newId now p.2 = some (.handed r) ∧
          r.payload = withoutSig m.payload := by
  rintro ⟨_, hall⟩
  let m : Message ℕ :=
    ⟨.str (pyStr ['g', 'o', 's', 's', 'i', 'p']), .str (pyStr ['a']), .dict [], .none,
      .str (pyStr ['1']), .float (.finite 7)⟩
  exact SecureTransport.not_sendAll_two m ['b'] ['c'] [] .none .none
    (hall m [['b'], ['c']] .none .none)

end Suprime
