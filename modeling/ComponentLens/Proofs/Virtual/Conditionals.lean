/-
# Chains written as conditionals

A chain is written one branch after the other: a head, the statements inside, and a closing brace
(`walkBranches_pieces`).  The head depends on the branch alone, and on whether a condition has been written
before.  So the heads read as one conditional, an `if`, then any number of `else if`, then at most one `else`,
if the chain is well shaped (`wellShaped_iff_isConditional`), and otherwise they do not: a chain that starts
without a condition is written with an `else` in front, and one that goes on behind a branch without a
condition with an `else` in the middle.

Together with what decides the shape of chains, `chains_conditional_iff` says for every template whether the
code written for it holds such an `else`.
-/
import ComponentLens.Proofs.Markup.Chains
import ComponentLens.Virtual.TemplateBody

namespace ComponentLens.Virtual

open Markup

/-! ## 1. What is written for a chain -/

/-- The head of a first branch. -/
def ifHead (e : Expression) : List Code := ["if (\n(", expression e, ")\n) \x7b\n"]

/-- The head of a later branch with a condition. -/
def elseIfHead (e : Expression) : List Code := ["else if (\n(", expression e, ")\n) \x7b\n"]

/-- The head of a branch without a condition. -/
def elseHead : List Code := ["else \x7b\n"]

/-- The head of a branch. -/
def branchHead (first : Bool) : Option Expression → List Code
  | some e => if first then ifHead e else elseIfHead e
  | none => elseHead

/-- The heads of the branches of a chain. `first` tells that no condition has been written yet. -/
def branchHeads (first : Bool) : List Branch → List (List Code)
  | [] => []
  | .mk condition _ _ :: rest => branchHead first condition :: branchHeads (first && condition.isNone) rest

/-- The statements inside the branches of a chain. -/
def branchBodies (scope : TemplateScope) (ancestors : List String) (next : Nat) : List Branch → List (List Code)
  | [] => []
  | .mk _ children _ :: rest =>
    (walkNodes scope ancestors next children).pieces ::
      branchBodies scope ancestors (walkNodes scope ancestors next children).next rest

/-- **A chain is written branch by branch**, each with its head, its statements and a brace. -/
theorem walkBranches_pieces (scope : TemplateScope) (ancestors : List String) (next : Nat) (first : Bool)
    (branches : List Branch) :
    (walkBranches scope ancestors next first branches).pieces =
      (List.zipWith (fun head body => head ++ body ++ [raw "\x7d\n"]) (branchHeads first branches)
        (branchBodies scope ancestors next branches)).flatten := by
  induction branches generalizing next first with
  | nil => rfl
  | cons branch rest ih =>
    obtain ⟨condition, children, span⟩ := branch
    rw [branchHeads, branchBodies, List.zipWith_cons_cons, List.flatten_cons, ← ih]
    cases condition with
    | none => simp only [walkBranches, branchHead, elseHead]
    | some e => cases first <;> simp [walkBranches, branchHead, ifHead, elseIfHead]

/-! ## 2. Conditionals -/

/-- The heads read as one conditional: an `if`, any number of `else if`, and at most one `else` at the end. -/
def IsConditional (heads : List (List Code)) : Prop :=
  ∃ (e : Expression) (es : List Expression),
    heads = ifHead e :: es.map elseIfHead ∨ heads = ifHead e :: (es.map elseIfHead ++ [elseHead])

theorem elseHead_ne_ifHead (e : Expression) : elseHead ≠ ifHead e := by
  simp [elseHead, ifHead]

theorem elseHead_ne_elseIfHead (e : Expression) : elseHead ≠ elseIfHead e := by
  simp [elseHead, elseIfHead]

/-- Behind the first branch, only the last one may lack a condition. -/
theorem branchHeads_iff (branches : List Branch) :
    (∀ b ∈ branches.dropLast, b.isConditional = true) ↔
      ∃ es : List Expression, branchHeads false branches = es.map elseIfHead ∨
        branchHeads false branches = es.map elseIfHead ++ [elseHead] := by
  induction branches with
  | nil => exact ⟨fun _ => ⟨[], .inl rfl⟩, fun _ => by simp⟩
  | cons branch rest ih =>
    obtain ⟨condition, children, span⟩ := branch
    have hheads : branchHeads false (.mk condition children span :: rest) =
        branchHead false condition :: branchHeads false rest := rfl
    cases rest with
    | nil =>
      refine iff_of_true (by simp) ?_
      cases condition with
      | none => exact ⟨[], .inr rfl⟩
      | some e => exact ⟨[e], .inl rfl⟩
    | cons second rest =>
      rw [List.dropLast_cons_of_ne_nil (List.cons_ne_nil _ _), List.forall_mem_cons, ih, hheads]
      constructor
      · rintro ⟨hconditional, es, hes⟩
        obtain ⟨e, rfl⟩ := Option.isSome_iff_exists.1 hconditional
        refine ⟨e :: es, ?_⟩
        rcases hes with hes | hes
        · exact .inl (by rw [hes]; rfl)
        · exact .inr (by rw [hes]; rfl)
      · rintro ⟨es, hes⟩
        cases es with
        | nil =>
          obtain ⟨secondCondition, _, _⟩ := second
          rcases hes with hes | hes <;> simp [branchHeads] at hes
        | cons e es =>
          simp only [List.map_cons, List.cons_append, List.cons.injEq] at hes
          refine ⟨?_, es, hes.imp And.right And.right⟩
          have hhead : branchHead false condition = elseIfHead e := hes.elim And.left And.left
          cases condition with
          | none => exact absurd hhead (elseHead_ne_elseIfHead e)
          | some e' => rfl

/-- **A chain is written as a conditional** exactly if it is well shaped. -/
theorem wellShaped_iff_isConditional (branches : List Branch) :
    WellShaped branches ↔ IsConditional (branchHeads true branches) := by
  cases branches with
  | nil =>
    refine iff_of_false (fun h => h.ne_nil rfl) ?_
    rintro ⟨e, es, h | h⟩
    · cases h
    · cases h
  | cons branch rest =>
    obtain ⟨condition, children, span⟩ := branch
    rw [wellShaped_cons, branchHeads_iff]
    cases condition with
    | none =>
      refine iff_of_false (fun h => Bool.false_ne_true h.1) ?_
      rintro ⟨e, es, h | h⟩
      · exact elseHead_ne_ifHead e (List.cons.inj h).1
      · exact elseHead_ne_ifHead e (List.cons.inj h).1
    | some e =>
      have hheads : branchHeads true (.mk (some e) children span :: rest) = ifHead e :: branchHeads false rest := rfl
      rw [hheads]
      constructor
      · rintro ⟨-, es, hes | hes⟩
        · exact ⟨e, es, .inl (by rw [hes])⟩
        · exact ⟨e, es, .inr (by rw [hes])⟩
      · rintro ⟨e', es, hes | hes⟩
        · exact ⟨rfl, es, .inl (List.cons.inj hes).2⟩
        · exact ⟨rfl, es, .inr (List.cons.inj hes).2⟩

/-! ## 3. Templates -/

/-- **Chains read as conditionals.**  For every text, the chains of its tree are well shaped if and only if no
element is out of place: none starts a chain without a condition, and none goes on with a chain that ends without
one.  Every chain has a branch, and its heads are written one by one, in the order of one conditional if and only
if it is well shaped. -/
theorem chains_conditional_iff (source : String) :
    ((∀ branches ∈ nodeChains (parse source).nodes, WellShaped branches) ↔
      siblingsOrderly none (build source.toList).1) ∧
    ∀ branches ∈ nodeChains (parse source).nodes, branches ≠ [] ∧
      (WellShaped branches ↔ IsConditional (branchHeads true branches)) ∧
      ∀ scope ancestors next, (walkBranches scope ancestors next true branches).pieces =
        (List.zipWith (fun head body => head ++ body ++ [raw "\x7d\n"]) (branchHeads true branches)
          (branchBodies scope ancestors next branches)).flatten := by
  obtain ⟨hiff, hne_nil⟩ := parse_chains source
  refine ⟨hiff, fun branches hmem => ⟨hne_nil branches hmem, wellShaped_iff_isConditional branches, ?_⟩⟩
  exact fun scope ancestors next => walkBranches_pieces scope ancestors next true branches

/-- A directive without a value starts a chain without a condition, and an `else` behind an `else` goes on with
one that ends without. -/
theorem not_chains_conditional_bareIf :
    (nodeChains (parse "<p v-if/>").nodes).map (·.map Branch.isConditional) = [[false]] ∧
      (nodeChains (parse "<p v-if=\"a\"/><p v-else/><p v-else/>").nodes).map (·.map Branch.isConditional) =
        [[true, false, false]] ∧
      (¬ ∀ branches ∈ nodeChains (parse "<p v-if/>").nodes, WellShaped branches) ∧
      ¬ ∀ branches ∈ nodeChains (parse "<p v-if=\"a\"/><p v-else/><p v-else/>").nodes, WellShaped branches := by
  have hbare : (nodeChains (parse "<p v-if/>").nodes).map (·.map Branch.isConditional) = [[false]] := by
    decide +kernel
  have htwice : (nodeChains (parse "<p v-if=\"a\"/><p v-else/><p v-else/>").nodes).map
      (·.map Branch.isConditional) = [[true, false, false]] := by
    decide +kernel
  refine ⟨hbare, htwice, fun hall => ?_, fun hall => ?_⟩
  · obtain ⟨branches, hmem, hshape⟩ := List.mem_map.1 (hbare ▸ List.mem_singleton_self [false])
    obtain ⟨b, rfl, hb⟩ := List.map_eq_singleton_iff.1 hshape
    simp [wellShaped_single.1 (hall _ hmem)] at hb
  · obtain ⟨branches, hmem, hshape⟩ := List.mem_map.1 (htwice ▸ List.mem_singleton_self [true, false, false])
    obtain ⟨first, rest, rfl, -, hrest⟩ := List.map_eq_cons_iff.1 hshape
    obtain ⟨b, last, rfl, hb, hlast⟩ := List.map_eq_cons_iff.1 hrest
    obtain ⟨c, rfl, -⟩ := List.map_eq_singleton_iff.1 hlast
    simp [(hall _ hmem).others b (by simp)] at hb

end ComponentLens.Virtual
