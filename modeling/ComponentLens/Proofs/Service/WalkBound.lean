/-
# Following links ends, whatever the backend answers

Links run both ways, so the places that they lead to form cycles, and a far end is asked about before it has
been seen.  The list of open questions is therefore no measure of a walk.  What shrinks is the set of places
that have not been seen: every place brings its questions once, when it is new.  Section 2 turns this into a
bound that asks nothing of the backend.  It may contradict itself from one question to the next, fail, or be
cancelled at any time; only its places come from a finite set (`Walk.Drawn.exists_loop`).

`Walk.Loop` is a walk without a bound of questions, so that coming to an end is something to prove.
`Walk.Loop.run_eq` then shows that a walk with a bound of questions is no other walk as long as the bound is
not met.  `Proofs.Service.Calls` draws the conclusions for the calls of a request.
-/
import ComponentLens.Proofs.Service.Closure
import Mathlib.Algebra.BigOperators.Group.Finset.Basic
import Mathlib.Algebra.Order.BigOperators.Group.Finset

namespace ComponentLens.Service

variable {σ α : Type}

/-! ## 1. A walk without a bound -/

/-- How a walk came to its end. -/
structure Walk.Outcome (σ α : Type) where
  /-- The questions that were asked, the first one first. -/
  asked : List Question
  walk : Walk α
  /-- Whether the request was cancelled before all questions were asked. -/
  cancelled : Bool
  state : σ

/-- What the walk gives: nothing if it was cancelled. -/
def Walk.Outcome.result (o : Walk.Outcome σ α) : Option (Walk α) := if o.cancelled then none else some o.walk

/-- A walk that asks as long as a question is open. -/
inductive Walk.Loop (isCancelled : StateM σ Bool) (ask : Question → StateM σ (Reply (List (Place × α))))
    (ends : Place → List LinkEnd) : Walk α → σ → Walk.Outcome σ α → Prop
  | finished {w : Walk α} {s : σ} (hopen : w.open_ = []) :
      Walk.Loop isCancelled ask ends w s ⟨[], w, false, s⟩
  | stopped {w : Walk α} {s : σ} {k : Question} {rest : List Question} (hopen : w.open_ = k :: rest)
      (hcancel : (isCancelled s).1 = true) :
      Walk.Loop isCancelled ask ends w s ⟨[], w, true, (isCancelled s).2⟩
  | answered {w : Walk α} {s : σ} {k : Question} {rest : List Question} {answers : List (Place × α)}
      {o : Walk.Outcome σ α} (hopen : w.open_ = k :: rest) (hgoes : (isCancelled s).1 = false)
      (hask : (ask k (isCancelled s).2).1 = .ok answers)
      (hrest : Walk.Loop isCancelled ask ends (answers.foldl (Walk.take ends k) { w with open_ := rest })
        (ask k (isCancelled s).2).2 o) :
      Walk.Loop isCancelled ask ends w s { o with asked := k :: o.asked }
  | failed {w : Walk α} {s : σ} {k : Question} {rest : List Question} {e : BackendError}
      {o : Walk.Outcome σ α} (hopen : w.open_ = k :: rest) (hgoes : (isCancelled s).1 = false)
      (hask : (ask k (isCancelled s).2).1 = .error e) (he : e ≠ .cancelled)
      (hrest : Walk.Loop isCancelled ask ends { w with open_ := rest } (ask k (isCancelled s).2).2 o) :
      Walk.Loop isCancelled ask ends w s { o with asked := k :: o.asked }
  | refused {w : Walk α} {s : σ} {k : Question} {rest : List Question} (hopen : w.open_ = k :: rest)
      (hgoes : (isCancelled s).1 = false) (hask : (ask k (isCancelled s).2).1 = .error .cancelled) :
      Walk.Loop isCancelled ask ends w s
        ⟨[k], { w with open_ := rest }, true, (ask k (isCancelled s).2).2⟩

section Walks

variable {isCancelled : StateM σ Bool} {ask : Question → StateM σ (Reply (List (Place × α)))}
variable {ends : Place → List LinkEnd} {w : Walk α} {s : σ} {o : Walk.Outcome σ α}

/-- A walk comes to one end only. -/
theorem Walk.Loop.unique (h : Walk.Loop isCancelled ask ends w s o) {o' : Walk.Outcome σ α}
    (h' : Walk.Loop isCancelled ask ends w s o') : o = o' := by
  induction h generalizing o' with
  | finished hopen => cases h' <;> simp_all
  | stopped hopen hcancel => cases h' <;> simp_all
  | refused hopen hgoes hask => cases h' <;> simp_all
  | answered hopen hgoes hask hrest ih =>
    cases h' with
    | answered hopen' hgoes' hask' hrest' =>
      obtain ⟨rfl, rfl⟩ := List.cons.inj (hopen.symm.trans hopen')
      cases hask.symm.trans hask'
      rw [ih hrest']
    | _ => simp_all
  | failed hopen hgoes hask he hrest ih =>
    cases h' with
    | failed hopen' hgoes' hask' he' hrest' =>
      obtain ⟨rfl, rfl⟩ := List.cons.inj (hopen.symm.trans hopen')
      rw [ih hrest']
    | _ => simp_all

/-- A cancelled walk ends before the next question. -/
theorem Walk.run_stopped {k : Question} {rest : List Question} (fuel : Nat) (hopen : w.open_ = k :: rest)
    (hcancel : (isCancelled s).1 = true) :
    Walk.run isCancelled ask ends (fuel + 1) w s = (none, (isCancelled s).2) := by
  obtain ⟨open_, seen, found⟩ := w
  subst hopen
  unfold Walk.run
  obtain ⟨cancelled, s', hpair⟩ : ∃ cancelled s', isCancelled s = (cancelled, s') := ⟨_, _, rfl⟩
  obtain rfl : cancelled = true := by rw [hpair] at hcancel; exact hcancel
  simp only [bind, StateT.bind, hpair, if_true]
  rfl

/-- **A bound that is not met changes nothing.**  What was asked, with what a cancelled request left open, is
all that the bound has to leave room for. -/
theorem Walk.Loop.run_eq (h : Walk.Loop isCancelled ask ends w s o) {fuel : Nat}
    (hfuel : o.asked.length + o.walk.open_.length ≤ fuel) :
    Walk.run isCancelled ask ends fuel w s = (o.result, o.state) := by
  induction h generalizing fuel with
  | @finished w s hopen => exact Walk.run_nil fuel s hopen
  | stopped hopen hcancel =>
    simp only [hopen, List.length_cons] at hfuel
    obtain ⟨fuel, rfl⟩ := Nat.exists_eq_add_of_le' (show 1 ≤ fuel by omega)
    exact Walk.run_stopped fuel hopen hcancel
  | @answered w s k rest answers o hopen hgoes hask hrest ih =>
    simp only [List.length_cons] at hfuel
    obtain ⟨fuel, rfl⟩ := Nat.exists_eq_add_of_le' (show 1 ≤ fuel by omega)
    have hpair : ask k (isCancelled s).2 = (.ok answers, (ask k (isCancelled s).2).2) := Prod.ext hask rfl
    rw [Walk.run_cons fuel s hopen hgoes, hpair]
    exact ih (by omega)
  | @failed w s k rest e o hopen hgoes hask he hrest ih =>
    simp only [List.length_cons] at hfuel
    obtain ⟨fuel, rfl⟩ := Nat.exists_eq_add_of_le' (show 1 ≤ fuel by omega)
    have hpair : ask k (isCancelled s).2 = (.error e, (ask k (isCancelled s).2).2) := Prod.ext hask rfl
    rw [Walk.run_cons fuel s hopen hgoes, hpair]
    cases e with
    | cancelled => exact absurd rfl he
    | unknownDocument uri => exact ih (by omega)
    | failed message => exact ih (by omega)
  | @refused w s k rest hopen hgoes hask =>
    simp only [List.length_singleton] at hfuel
    obtain ⟨fuel, rfl⟩ := Nat.exists_eq_add_of_le' (show 1 ≤ fuel by omega)
    have hpair : ask k (isCancelled s).2 = (.error .cancelled, (ask k (isCancelled s).2).2) :=
      Prod.ext hask rfl
    rw [Walk.run_cons fuel s hopen hgoes, hpair]
    rfl

/-! ## 2. The places that are left -/

variable {L : Finset Place} {old : List Place}

/-- What holds of a walk that began with `old`, if every answer comes from `L`: what it found is new, comes from
`L`, and is all that has been seen since. -/
structure Walk.Drawn (L : Finset Place) (old : List Place) (w : Walk α) : Prop where
  seen : w.seen = w.places.reverse ++ old
  nodup : w.seen.Nodup
  subset : ∀ p ∈ w.places, p ∈ L

/-- Before the first question nothing has been found. -/
theorem Walk.Drawn.begin (k : Question) (hold : old.Nodup) :
    ({ open_ := [k], seen := old } : Walk α).Drawn L old :=
  ⟨rfl, hold, by simp [Walk.places]⟩

/-- The invariant says nothing of the open questions. -/
theorem Walk.Drawn.reopen (h : w.Drawn L old) (rest : List Question) :
    ({ w with open_ := rest } : Walk α).Drawn L old :=
  ⟨h.seen, h.nodup, h.subset⟩

/-- **One answer** keeps the invariant. -/
theorem Walk.Drawn.answer (h : w.Drawn L old) (ends : Place → List LinkEnd) (k : Question)
    {answers : List (Place × α)} (hanswers : ∀ answer ∈ answers, answer.1 ∈ L) :
    (answers.foldl (Walk.take ends k) w).Drawn L old := by
  have hgrows := Walk.foldl_take_grows ends k answers w
  generalize answers.foldl (Walk.take ends k) w = w' at hgrows
  obtain ⟨new, hseen, hplaces⟩ := hgrows.trace
  have hnodup := hgrows.nodup h.nodup
  refine ⟨by rw [hseen, hplaces, h.seen]; simp, hnodup, fun p hp => ?_⟩
  rw [hplaces] at hp
  rcases List.mem_append.1 hp with hp | hp
  · exact h.subset p hp
  · -- what is new has not been seen before, so an answer brought it
    have hp' : p ∈ w'.seen := hseen ▸ List.mem_append_left _ (List.mem_reverse.2 hp)
    rcases (hgrows.mem_seen p).1 hp' with hbefore | hadded
    · rw [hseen] at hnodup
      exact absurd hbefore ((List.nodup_append.1 hnodup).2.2 p (List.mem_reverse.2 hp) p · rfl)
    · obtain ⟨answer, hanswer, rfl⟩ := List.mem_map.1 hadded
      exact hanswers answer hanswer

theorem Walk.Drawn.nodup_places (h : w.Drawn L old) : w.places.Nodup := by
  have hnodup := h.nodup
  rw [h.seen] at hnodup
  exact List.nodup_reverse.1 (List.nodup_append.1 hnodup).1

/-- What a walk found is new. -/
theorem Walk.Drawn.notMem_old (h : w.Drawn L old) : ∀ p ∈ w.places, p ∉ old := by
  intro p hp hold
  have hnodup := h.nodup
  rw [h.seen] at hnodup
  exact (List.nodup_append.1 hnodup).2.2 p (List.mem_reverse.2 hp) p hold rfl

/-- What a walk found, or a part of it, and what was found by later walks that go on with what has been seen. -/
theorem Walk.Drawn.append_new (h : w.Drawn L old) {first later : List Place} (hfirst : first.Sublist w.places)
    (hnodup : later.Nodup) (hlater : ∀ p ∈ later, p ∈ L ∧ p ∉ w.seen) :
    (first ++ later).Nodup ∧ ∀ p ∈ first ++ later, p ∈ L ∧ p ∉ old := by
  have hseen : ∀ p, p ∈ w.places ∨ p ∈ old → p ∈ w.seen := by
    intro p hp
    rw [h.seen, List.mem_append, List.mem_reverse]
    exact hp
  constructor
  · refine List.nodup_append.2 ⟨hfirst.nodup h.nodup_places, hnodup, ?_⟩
    rintro p hp _ hp' rfl
    exact (hlater p hp').2 (hseen p (.inl (hfirst.subset hp)))
  · intro p hp
    rcases List.mem_append.1 hp with hp | hp
    · exact ⟨h.subset p (hfirst.subset hp), h.notMem_old p (hfirst.subset hp)⟩
    · exact ⟨(hlater p hp).1, fun hold => (hlater p hp).2 (hseen p (.inr hold))⟩

/-- What was found leads on no more often than all of `L`. -/
theorem Walk.Drawn.leads_le (h : w.Drawn L old) (ends : Place → List LinkEnd) :
    w.leads ends ≤ ∑ p ∈ L, (ends p).length := by
  rw [Walk.leads, ← List.sum_toFinset _ h.nodup_places]
  exact Finset.sum_le_sum_of_subset fun p hp => h.subset p (List.mem_toFinset.1 hp)

/-- **A walk comes to its end.**  Here `n` counts the open questions and those that the places not seen yet
can still lead to. -/
theorem Walk.Drawn.exists_loop (h : w.Drawn L old)
    (hask : ∀ k s answers, (ask k s).1 = .ok answers → ∀ answer ∈ answers, answer.1 ∈ L)
    (ends : Place → List LinkEnd) (n : Nat) (s : σ)
    (hn : w.open_.length + ∑ p ∈ L, (ends p).length ≤ n + w.leads ends) :
    ∃ o, Walk.Loop isCancelled ask ends w s o ∧ o.walk.Drawn L old ∧
      o.asked.length + o.walk.open_.length ≤ n := by
  induction n generalizing w s with
  | zero =>
    have hleads := h.leads_le ends
    have hopen : w.open_ = [] := List.length_eq_zero_iff.1 (by omega)
    exact ⟨_, .finished hopen, h, by simp [hopen]⟩
  | succ n ih =>
    have hleads := h.leads_le ends
    cases hopen : w.open_ with
    | nil => exact ⟨_, .finished hopen, h, by simp [hopen]⟩
    | cons k rest =>
      rw [hopen, List.length_cons] at hn
      cases hgoes : (isCancelled s).1 with
      | true =>
        refine ⟨_, .stopped hopen hgoes, h, ?_⟩
        simp only [hopen, List.length_nil, List.length_cons]
        omega
      | false =>
        have hkept : ({ w with open_ := rest } : Walk α).leads ends = w.leads ends := rfl
        cases hreply : (ask k (isCancelled s).2).1 with
        | ok answers =>
          have hdrawn := (h.reopen rest).answer ends k (hask k _ answers hreply)
          have hcount := (Walk.foldl_take_grows ends k answers { w with open_ := rest }).count
          rw [hkept] at hcount
          simp only at hcount
          obtain ⟨o, hloop, hend, hasked⟩ := ih hdrawn (ask k (isCancelled s).2).2 (by omega)
          exact ⟨_, .answered hopen hgoes hreply hloop, hend, by simp only [List.length_cons]; omega⟩
        | error e =>
          by_cases he : e = .cancelled
          · subst he
            refine ⟨_, .refused hopen hgoes hreply, h.reopen rest, ?_⟩
            simp only [List.length_singleton]
            omega
          · obtain ⟨o, hloop, hend, hasked⟩ := ih (h.reopen rest) (ask k (isCancelled s).2).2
              (by rw [hkept]; simp only; omega)
            exact ⟨_, .failed hopen hgoes hreply he hloop, hend, by simp only [List.length_cons]; omega⟩

end Walks

end ComponentLens.Service
