import Mathlib.Data.List.ReduceOption
import Suprime.TcpTransport

namespace Suprime
set_option autoImplicit true

namespace TcpTransport

section
variable {F : Type} [FiniteFloat F] [DecidableEq F]

/-- What each frame of a connection decodes to. -/
def decoded (gz : Gzip) : (ℕ → Defaults F) → List (List UInt8) → List (Option (Message F))
  | _, [] => []
  | defaults, p :: ps => decodeBody gz (defaults 0) p :: decoded gz (fun i => defaults (i + 1)) ps

/-- The messages that are handed over: up to the first frame that does not decode or whose
message makes `on_message` raise. -/
def handedOf (raises : List (Message F) → Message F → Bool) (past : List (Message F)) :
    List (Option (Message F)) → List (Message F)
  | [] => past
  | none :: _ => past
  | some m :: l => if raises past m then past ++ [m] else handedOf raises (past ++ [m]) l

theorem handleClient_frames (gz : Gzip) {maxFrame : ℕ}
    (raises : List (Message F) → Message F → Bool) (defaults : ℕ → Defaults F)
    (past : List (Message F)) {ps : List (List UInt8)}
    (hps : ∀ p ∈ ps, 1 ≤ p.length ∧ p.length ≤ maxFrame ∧ p.length < 2 ^ 32) :
    (handleClient gz maxFrame raises defaults past (ps.flatMap frame)).handed =
      handedOf raises past (decoded gz defaults ps) := by
  induction ps generalizing defaults past with
  | nil => rw [List.flatMap_nil, handleClient, decoded, handedOf]; rfl
  | cons p ps ih =>
    obtain ⟨hlow, hhigh, hfits⟩ := hps p List.mem_cons_self
    rw [List.flatMap_cons, handleClient_frame gz raises defaults past hlow hhigh hfits, decoded]
    cases hm : decodeBody gz (defaults 0) p with
    | none => rfl
    | some m =>
      cases hr : raises past m with
      | true => simp only [hr, if_true, handedOf]
      | false =>
        simp only [hr, Bool.false_eq_true, if_false, handedOf]
        exact ih _ _ (fun q hq => hps q (List.mem_cons_of_mem _ hq))

theorem reduceOption_eq_nil_iff (l : List (Option α)) :
    l.reduceOption = [] ↔ ∀ y ∈ l, y = none := by
  rw [List.reduceOption_eq_nil_iff]
  constructor
  · intro ⟨n, hn⟩ y hy
    rw [hn] at hy
    exact List.eq_of_mem_replicate hy
  · intro h
    exact ⟨l.length, List.eq_replicate_length.2 h⟩

section
omit [FiniteFloat F] [DecidableEq F]

theorem lost_iff {x : Option (Message F)} {l : List (Option (Message F))}
    (ends : List (Option (Message F)) → Option (Message F) → Prop) (hx : ends [] x) :
    l.reduceOption = [] ↔ ∀ before y after, x :: l = before ++ y :: after → ends before y →
      ∀ z ∈ after, z = none := by
  rw [reduceOption_eq_nil_iff]
  constructor
  · intro hl before y after he _ z hz
    cases before with
    | nil =>
      obtain ⟨_, rfl⟩ := List.cons.inj he
      exact hl z hz
    | cons w before =>
      obtain ⟨_, rfl⟩ := List.cons.inj he
      exact hl z (List.mem_append_right _ (List.mem_cons_of_mem _ hz))
  · intro h
    exact h [] x l rfl hx

theorem handedOf_eq_iff (raises : List (Message F) → Message F → Bool) (past : List (Message F))
    (l : List (Option (Message F))) :
    handedOf raises past l = past ++ l.reduceOption ↔
      ∀ before x after, l = before ++ x :: after →
        (x = none ∨ ∃ m, x = some m ∧ raises (past ++ before.reduceOption) m = true) →
        ∀ y ∈ after, y = none := by
  induction l generalizing past with
  | nil =>
    apply iff_of_true (List.append_nil past).symm
    intro before x after he
    cases before <;> cases he
  | cons x l ih =>
    cases x with
    | none =>
      rw [handedOf, ← lost_iff (fun before x => x = none ∨
        ∃ m, x = some m ∧ raises (past ++ before.reduceOption) m = true) (.inl rfl)]
      exact List.self_eq_append_right
    | some m =>
      cases hr : raises past m with
      | true =>
        have hends : raises (past ++ ([] : List (Option (Message F))).reduceOption) m = true := by
          rw [List.reduceOption_nil, List.append_nil]
          exact hr
        rw [handedOf, if_pos hr, ← lost_iff (fun before x => x = none ∨
          ∃ m, x = some m ∧ raises (past ++ before.reduceOption) m = true)
          (.inr ⟨m, rfl, hends⟩), List.reduceOption_cons_of_some, List.append_right_inj,
          List.cons.injEq]
        exact ⟨fun h => h.2.symm, fun h => ⟨rfl, h.symm⟩⟩
      | false =>
        have happend : past ++ (some m :: l).reduceOption = past ++ [m] ++ l.reduceOption := by
          rw [List.reduceOption_cons_of_some, List.append_assoc, List.singleton_append]
        rw [handedOf, hr, if_neg Bool.false_ne_true, happend, ih]
        constructor
        · intro h before x after he hx
          cases before with
          | nil =>
            obtain ⟨rfl, rfl⟩ := List.cons.inj he
            cases hx with
            | inl hx => cases hx
            | inr hx =>
              obtain ⟨m', hm', hx⟩ := hx
              cases hm'
              rw [List.reduceOption_nil, List.append_nil, hr] at hx
              cases hx
          | cons w before =>
            obtain ⟨rfl, rfl⟩ := List.cons.inj he
            apply h before x after rfl
            rw [List.reduceOption_cons_of_some] at hx
            rw [List.append_assoc, List.singleton_append]
            exact hx
        · intro h before x after he hx
          apply h (some m :: before) x after (by rw [he]; rfl)
          rw [List.append_assoc, List.singleton_append] at hx
          rw [List.reduceOption_cons_of_some]
          exact hx

end

/-- After a frame that does not decode, or whose message makes `on_message` raise, no other frame
decodes. -/
def BadFramesLast (raises : List (Message F) → Message F → Bool)
    (l : List (Option (Message F))) : Prop :=
  ∀ before x after, l = before ++ x :: after →
    (x = none ∨ ∃ m, x = some m ∧ raises before.reduceOption m = true) → ∀ y ∈ after, y = none

/-- Every frame that decodes is handed over exactly when no such frame comes after a bad one. -/
theorem handed_all_iff (gz : Gzip) {maxFrame : ℕ}
    (raises : List (Message F) → Message F → Bool) (defaults : ℕ → Defaults F)
    {ps : List (List UInt8)}
    (hps : ∀ p ∈ ps, 1 ≤ p.length ∧ p.length ≤ maxFrame ∧ p.length < 2 ^ 32) :
    (handleClient gz maxFrame raises defaults [] (ps.flatMap frame)).handed =
        (decoded gz defaults ps).reduceOption ↔
      BadFramesLast raises (decoded gz defaults ps) := by
  rw [handleClient_frames gz raises defaults [] hps]
  have hiff := handedOf_eq_iff raises [] (decoded gz defaults ps)
  rw [List.nil_append] at hiff
  exact hiff

end

/-- The body of a message, not compressed. -/
def plainFrame (m : Message ℕ) : List UInt8 := 0 :: m.toBytes.data.toList

def listFrame : List UInt8 := 0 :: (encodeUtf8 (dumps (.list [] : PyValue ℕ))).data.toList

def greeting : Message ℕ :=
  ⟨.str [116], .str [115], .dict [], .none, .str [49], .int 0⟩

theorem decodeBody_plainFrame (gz : Gzip) (d : Defaults ℕ) (m : Message ℕ) :
    decodeBody gz d (plainFrame m) = some m.viaJson := by
  have hflag : (0 : UInt8) &&& FLAG_GZIP = 0 := by decide
  rw [plainFrame, decodeBody, if_pos hflag, Option.bind_some, Array.toArray_toList]
  exact m.fromBytes_toBytes d.newId d.now

theorem decodeBody_listFrame (gz : Gzip) (d : Defaults ℕ) : decodeBody gz d listFrame = none := by
  have hflag : (0 : UInt8) &&& FLAG_GZIP = 0 := by decide
  rw [listFrame, decodeBody, if_pos hflag, Option.bind_some, Array.toArray_toList,
    Message.fromBytes, decodeUtf8_encodeUtf8, Option.bind_some, loads_dumps]
  rfl

theorem sizes_bad_then_good :
    ∀ p ∈ [listFrame, plainFrame greeting],
      1 ≤ p.length ∧ p.length ≤ 16777216 ∧ p.length < 2 ^ 32 := by
  decide

/-- A message that comes after a list is lost. -/
theorem bad_frame_costs_connection :
    ¬ ∀ (gz : Gzip) (maxFrame : ℕ) (defaults : ℕ → Defaults ℕ) (ps : List (List UInt8)),
      (∀ p ∈ ps, 1 ≤ p.length ∧ p.length ≤ maxFrame ∧ p.length < 2 ^ 32) →
      (handleClient gz maxFrame (fun _ _ => false) defaults [] (ps.flatMap frame)).handed =
        (decoded gz defaults ps).reduceOption := by
  intro hall
  have hhanded := hall ⟨some⟩ 16777216 (fun _ => ⟨.none, .none⟩) [listFrame, plainFrame greeting]
    sizes_bad_then_good
  rw [handleClient_frames _ _ _ _ sizes_bad_then_good] at hhanded
  simp only [decoded, decodeBody_listFrame, decodeBody_plainFrame, handedOf] at hhanded
  cases hhanded

/-- A list that comes after a message does not harm it. -/
theorem bad_frame_last_harmless :
    (handleClient ⟨some⟩ 16777216 (fun _ _ => false) (fun _ => ⟨.none, .none⟩) []
      ([plainFrame greeting, listFrame].flatMap frame)).handed = [greeting.viaJson] := by
  have hsizes : ∀ p ∈ [plainFrame greeting, listFrame],
      1 ≤ p.length ∧ p.length ≤ 16777216 ∧ p.length < 2 ^ 32 := by
    intro p hp
    exact sizes_bad_then_good p (List.mem_reverse.1 hp)
  have hall := (handed_all_iff (F := ℕ) ⟨some⟩ (fun _ _ => false) (fun _ => ⟨.none, .none⟩)
    hsizes).2
  simp only [decoded, decodeBody_listFrame, decodeBody_plainFrame] at hall
  apply hall
  intro before x after he hx
  match before with
  | [] =>
    obtain ⟨rfl, rfl⟩ := List.cons.inj he
    intro y hy
    exact List.mem_singleton.1 hy
  | [w] =>
    obtain ⟨_, he⟩ := List.cons.inj he
    obtain ⟨rfl, rfl⟩ := List.cons.inj he
    intro y hy
    cases hy
  | w :: v :: before =>
    obtain ⟨_, he⟩ := List.cons.inj he
    obtain ⟨_, he⟩ := List.cons.inj he
    cases before <;> cases he

end TcpTransport

end Suprime
