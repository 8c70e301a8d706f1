import Mathlib.Combinatorics.SimpleGraph.Basic
import Suprime.PlumtreeParts

namespace Suprime
set_option autoImplicit true

namespace Plumtree

variable {ν μ β : Type} [DecidableEq ν] [DecidableEq μ]

/-- The service of node `n` when nothing is lost: the eager peers are those on live links, the other
neighbours are lazy, and it has delivered the broadcasts of a list, of which it remembers the last
ones, and misses none. -/
structure Keeps (H : SimpleGraph ν) (n : ν) (live : ν → Prop) (held : List (μ × β)) (c : ℕ)
    (x : Plumtree ν μ β) : Prop where
  adj : live a → H.Adj n a
  neighbors : a ∈ x.neighbors ↔ H.Adj n a
  eager : a ∈ x.eager ↔ live a
  lazy : a ∈ x.lazy ↔ H.Adj n a ∧ ¬live a
  missing : x.missing = .empty
  received : x.received.items = held.drop (held.length - c)
  delivered : x.delivered = held
  queue : ∀ q ∈ x.lazyQueue, q.2 ∈ held.map Prod.fst
  cacheCap : x.cacheCap = c

section Keeps

variable {H : SimpleGraph ν} {n : ν} {live : ν → Prop} {held : List (μ × β)} {c : ℕ}
  {x : Plumtree ν μ β}

section
omit [DecidableEq ν] [DecidableEq μ]

theorem Keeps.congr (h : x.Keeps H n live held c) (hlive : ∀ a, live' a ↔ live a) :
    x.Keeps H n live' held c := by
  have he : live' = live := funext (fun a => propext (hlive a))
  rw [he]
  exact h

end

section
omit [DecidableEq ν]

theorem Keeps.get_eq_none (h : x.Keeps H n live held c) (hm : mid ∉ held.map Prod.fst) :
    x.received.get mid = none := by
  apply Dict.get_eq_none_iff.2
  change mid ∉ x.received.items.map Prod.fst
  rw [h.received]
  exact fun hmem => hm (((List.drop_sublist _ _).map _).mem hmem)

theorem received_record_new {x : Plumtree ν μ β} (hc : x.cacheCap = c)
    (hrec : x.received.items = held.drop (held.length - c)) (hm : mid ∉ held.map Prod.fst)
    (payload : β) :
    (x.record mid payload).received.items =
      (held ++ [(mid, payload)]).drop ((held ++ [(mid, payload)]).length - c) := by
  have hitems : (x.received.set mid payload).items =
      held.drop (held.length - c) ++ [(mid, payload)] := by
    rw [← hrec]
    apply assocSet_of_not_mem
    rw [hrec]
    exact fun hmem => hm (((List.drop_sublist _ _).map _).mem hmem)
  have hlen : (x.received.set mid payload).items.length = min held.length c + 1 := by
    rw [hitems, List.length_append, List.length_drop, List.length_singleton]
    omega
  have hdrop : held.drop (held.length - c) ++ [(mid, payload)] =
      (held ++ [(mid, payload)]).drop (held.length - c) :=
    (List.drop_append_of_le_length (Nat.sub_le _ _)).symm
  rw [List.length_append, List.length_singleton, record, hlen, hc]
  split
  · have hsucc : held.length - c + 1 = held.length + 1 - c := by omega
    dsimp only
    rw [hitems, hdrop, List.tail_drop, hsucc]
  · have hsame : held.length - c = held.length + 1 - c := by omega
    dsimp only
    rw [hitems, hdrop, hsame]

theorem Keeps.get_ne_none (h : x.Keeps H n live (held ++ [(mid, payload)]) c) (hc : c ≠ 0) :
    x.received.get mid ≠ none := by
  rw [ne_eq, Dict.get_eq_none_iff, not_not]
  change mid ∈ x.received.items.map Prod.fst
  have hle : (held ++ [(mid, payload)]).length - c ≤ held.length := by
    rw [List.length_append, List.length_singleton]
    omega
  rw [h.received, List.drop_append_of_le_length hle, List.map_append]
  exact List.mem_append_right _ List.mem_cons_self

theorem record_eq (x : Plumtree ν μ β) (mid : μ) (payload : β) :
    x.record mid payload = { x with received := (x.record mid payload).received } := by
  unfold record
  dsimp only
  split
  · rfl
  · rfl

end

section
omit [DecidableEq μ]

theorem Keeps.demote (h : x.Keeps H n live held c) (ha : H.Adj n a) :
    Keeps H n (fun y => live y ∧ y ≠ a) held c
      { x with eager := x.eager.erase a, lazy := insert a x.lazy } := by
  refine ⟨fun hy => h.adj hy.1, h.neighbors, ?_, ?_, h.missing, h.received, h.delivered, h.queue,
    h.cacheCap⟩
  · intro y
    rw [Finset.mem_erase, h.eager, and_comm]
  · intro y
    rw [Finset.mem_insert, h.lazy]
    by_cases hy : y = a
    · subst hy
      simp [ha]
    · simp [hy]

end

theorem Keeps.admitted (h : x.Keeps H n live held c) (ha : live a)
    (hm : mid ∉ held.map Prod.fst) (payload : β) :
    (x.admitted a mid payload).Keeps H n live (held ++ [(mid, payload)]) c := by
  have hitems := received_record_new h.cacheCap h.received hm payload
  unfold Plumtree.admitted
  rw [record_eq]
  refine ⟨h.adj, h.neighbors, ?_, ?_, ?_, hitems, ?_, ?_, h.cacheCap⟩
  · intro y
    rw [Finset.mem_insert, h.eager]
    exact or_iff_right_of_imp (fun hy => hy ▸ ha)
  · intro y
    rw [Finset.mem_erase, h.lazy]
    exact and_iff_right_of_imp (fun hy hya => hy.2 (hya ▸ ha))
  · rw [h.missing]
    rfl
  · rw [h.delivered]
  · intro q hq
    rw [List.map_append]
    exact List.mem_append_left _ (h.queue q hq)

section
omit [DecidableEq μ]

theorem Keeps.syncNeighbors (h : x.Keeps H n live held c) :
    x.syncNeighbors.Keeps H n live held c := by
  refine ⟨h.adj, h.neighbors, ?_, ?_, h.missing, h.received, h.delivered, h.queue, h.cacheCap⟩
  · intro y
    change y ∈ (x.eager ∪ (x.neighbors.toFinset \ (x.eager ∪ x.lazy))) ∩ x.neighbors.toFinset ↔ _
    rw [Finset.mem_inter, Finset.mem_union, Finset.mem_sdiff, Finset.mem_union, List.mem_toFinset,
      h.neighbors, h.eager, h.lazy]
    constructor
    · rintro ⟨hy | ⟨hadj, hnot⟩, _⟩
      · exact hy
      · by_contra hlive
        exact hnot (.inr ⟨hadj, hlive⟩)
    · exact fun hy => ⟨.inl hy, h.adj hy⟩
  · intro y
    change y ∈ x.lazy ∩ x.neighbors.toFinset ↔ _
    rw [Finset.mem_inter, List.mem_toFinset, h.neighbors, h.lazy]
    exact and_iff_left_of_imp (fun hy => hy.1)

end

theorem Keeps.started (h : x.Keeps H n live held c) (hm : mid ∉ held.map Prod.fst)
    (payload : β) : (x.started mid payload).Keeps H n live (held ++ [(mid, payload)]) c := by
  have hsync := h.syncNeighbors
  have hitems := received_record_new hsync.cacheCap hsync.received hm payload
  unfold Plumtree.started
  rw [record_eq]
  refine ⟨h.adj, hsync.neighbors, hsync.eager, hsync.lazy, hsync.missing, hitems, ?_, ?_,
    hsync.cacheCap⟩
  · rw [h.delivered]
  · intro q hq
    rw [List.map_append]
    exact List.mem_append_left _ (hsync.queue q hq)

theorem onIhave_of_received {x : Plumtree ν μ β} (src : ν)
    (hids : ∀ m ∈ ids, x.received.get m ≠ none) : x.onIhave src ids = x := by
  unfold Plumtree.onIhave
  induction ids with
  | nil => rfl
  | cons m ids ih =>
    have hhear : hear src x m = x := by
      rw [hear, if_neg]
      exact hids m List.mem_cons_self
    rw [List.foldl_cons, hhear]
    exact ih (fun m hm => hids m (List.mem_cons_of_mem _ hm))

section
omit [DecidableEq μ]

theorem Keeps.lazyPush (h : x.Keeps H n live held c) (hm : mid ∈ held.map Prod.fst)
    (sender : Option ν) (order : List ν) :
    (x.lazyPush mid sender order).Keeps H n live held c := by
  refine ⟨h.adj, h.neighbors, h.eager, h.lazy, h.missing, h.received, h.delivered, ?_, h.cacheCap⟩
  intro q hq
  rcases List.mem_append.1 hq with hq | hq
  · exact h.queue q hq
  · obtain ⟨peer, _, rfl⟩ := List.mem_map.1 hq
    exact hm

end

theorem Keeps.flushOn_nil (h : x.Keeps H n live held c) : x.flushOn [] = ⟨x, none⟩ := by
  rw [flushOn, h.missing]
  rfl

theorem Keeps.tick (h : x.Keeps H n live held c) :
    ∃ (y : Plumtree ν μ β) (l : List (ν × List μ)), y.Keeps H n live held c ∧
      x.tick = y.flushOn l ∧
      ∀ e ∈ l, ∀ m ∈ e.2, m ∈ held.map Prod.fst := by
  have hsync := h.syncNeighbors
  refine ⟨{ x.syncNeighbors with lazyQueue := [] }, (byPeer x.lazyQueue).items, ?_, rfl, ?_⟩
  · refine ⟨h.adj, hsync.neighbors, hsync.eager, hsync.lazy, hsync.missing, hsync.received,
      hsync.delivered, ?_, hsync.cacheCap⟩
    intro q hq
    cases hq
  · intro e he m hm
    exact h.queue (e.1, m) (mem_byPeer (Dict.mem_items.1 he) hm)

end Keeps

end Plumtree

end Suprime
