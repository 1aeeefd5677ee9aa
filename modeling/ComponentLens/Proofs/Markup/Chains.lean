/-
# The shape of chains

A chain of conditions reads as one conditional if its first branch has a condition, and every other one but
perhaps the last (`WellShaped`).  Lifting does not see to that.  It takes the value of a directive for the
condition whether or not there is one, and it adds a later branch to any chain in front, whatever the last
branch is.

So the shape is decided by the siblings as they are written.  One pass over them tells it: what is remembered
of the siblings in front is whether they end in a chain, and whether its last branch has a condition
(`Node.after`); an element is out of place if it starts a chain without a condition, or goes on with one
that ends without (`Node.Fits`).  Lifting carries exactly this along (`Lifting.ending?`), so `parse_chains`
holds for every text: the chains of its tree are well shaped if and only if no element is out of place.

The siblings are those of the tree before lifting, which holds no chains yet (`build_raw`).
-/
import ComponentLens.Proofs.Markup.WellPlaced

namespace ComponentLens.Markup

/-! ## 1. Chains -/

mutual

/-- The chains in a node, each with the chains inside it behind it. -/
def Node.chains : Node → List (List Branch)
  | .element _ children => nodeChains children
  | .text _ _ => []
  | .comment _ _ => []
  | .interpolation _ _ => []
  | .chain branches _ => branches :: branchChains branches
  | .loop _ children _ => nodeChains children

/-- The chains in siblings. -/
def nodeChains : List Node → List (List Branch)
  | [] => []
  | node :: rest => node.chains ++ nodeChains rest

/-- The chains inside the branches of a chain. -/
def branchChains : List Branch → List (List Branch)
  | [] => []
  | .mk _ children _ :: rest => nodeChains children ++ branchChains rest

end

/-- Whether the branch has a condition. -/
def Branch.isConditional : Branch → Bool
  | .mk condition _ _ => condition.isSome

/-- **The chain reads as a conditional**: it starts with a condition, and only its last branch may lack one. -/
structure WellShaped (branches : List Branch) : Prop where
  ne_nil : branches ≠ []
  first : ∀ b ∈ branches.head?, b.isConditional = true
  others : ∀ b ∈ branches.dropLast, b.isConditional = true

/-- The first branch has a condition, and of the others every one but the last. -/
theorem wellShaped_cons {b : Branch} {rest : List Branch} :
    WellShaped (b :: rest) ↔ b.isConditional = true ∧ ∀ c ∈ rest.dropLast, c.isConditional = true := by
  constructor
  · intro h
    refine ⟨h.first b rfl, fun c hc => h.others c ?_⟩
    rw [List.dropLast_cons_of_ne_nil (fun hnil => by simp [hnil] at hc)]
    exact List.mem_cons_of_mem _ hc
  · rintro ⟨hb, hrest⟩
    refine ⟨by simp, by simpa using hb, fun c hc => ?_⟩
    cases rest with
    | nil => simp at hc
    | cons second rest =>
      rw [List.dropLast_cons_of_ne_nil (List.cons_ne_nil _ _)] at hc
      rcases List.mem_cons.1 hc with rfl | hc
      · exact hb
      · exact hrest c hc

theorem wellShaped_single {b : Branch} : WellShaped [b] ↔ b.isConditional = true := by
  simp [wellShaped_cons]

/-- A chain goes on well if it is well shaped so far and does not end without a condition. -/
theorem wellShaped_concat {branches : List Branch} (hne : branches ≠ []) (b : Branch) :
    WellShaped (branches ++ [b]) ↔
      WellShaped branches ∧ branches.getLast?.any (·.isConditional) = true := by
  obtain ⟨front, last, rfl⟩ := List.eq_nil_or_concat branches |>.resolve_left hne
  have hhead : ((front ++ [last]) ++ [b]).head? = (front ++ [last]).head? := by
    cases front <;> rfl
  rw [List.concat_eq_append]
  constructor
  · intro h
    have hothers := h.others
    rw [List.dropLast_concat] at hothers
    refine ⟨⟨by simp, hhead ▸ h.first, fun b hb => hothers b ?_⟩, ?_⟩
    · rw [List.dropLast_concat] at hb
      exact List.mem_append_left _ hb
    · simpa using hothers last (by simp)
  · rintro ⟨h, hlast⟩
    have hothers := h.others
    rw [List.dropLast_concat] at hothers
    refine ⟨by simp, hhead ▸ h.first, fun b hb => ?_⟩
    rw [List.dropLast_concat] at hb
    rcases List.mem_append.1 hb with hb | hb
    · exact hothers b hb
    · rw [List.mem_singleton.1 hb]
      simpa using hlast

/-- Every chain in the siblings is well shaped. -/
def Sound (nodes : List Node) : Prop := ∀ branches ∈ nodeChains nodes, WellShaped branches

theorem nodeChains_append (xs ys : List Node) : nodeChains (xs ++ ys) = nodeChains xs ++ nodeChains ys := by
  induction xs with
  | nil => rfl
  | cons x xs ih => simp [nodeChains, ih]

theorem branchChains_append (xs ys : List Branch) :
    branchChains (xs ++ ys) = branchChains xs ++ branchChains ys := by
  induction xs with
  | nil => rfl
  | cons x xs ih =>
    obtain ⟨condition, children, span⟩ := x
    simp [branchChains, ih]

theorem mem_nodeChains {branches : List Branch} {nodes : List Node} :
    branches ∈ nodeChains nodes ↔ ∃ node ∈ nodes, branches ∈ node.chains := by
  induction nodes with
  | nil => simp [nodeChains]
  | cons node rest ih => simp [nodeChains, ih]

/-! ## 2. Directives of a tag -/

/-- Taking a directive takes the first of its name. -/
theorem takeDirective?_split {name : String} {props rest : List TagProp} {d : Directive}
    (h : takeDirective? name props = some (d, rest)) :
    ∃ front back, props = front ++ .directive d :: back ∧ rest = front ++ back ∧ d.name = name ∧
      ∀ d', .directive d' ∈ front → d'.name ≠ name := by
  induction props generalizing rest d with
  | nil => simp [takeDirective?] at h
  | cons prop props ih =>
    have hnext (hprop : ∀ d', TagProp.directive d' = prop → d'.name ≠ name)
        (hmap : (takeDirective? name props).map (fun taken => (taken.1, prop :: taken.2)) = some (d, rest)) :
        ∃ front back, prop :: props = front ++ .directive d :: back ∧ rest = front ++ back ∧ d.name = name ∧
          ∀ d', .directive d' ∈ front → d'.name ≠ name := by
      obtain ⟨⟨d', rest'⟩, htake, heq⟩ := Option.map_eq_some_iff.1 hmap
      cases heq
      obtain ⟨front, back, rfl, rfl, hname, hfront⟩ := ih htake
      refine ⟨prop :: front, back, rfl, rfl, hname, fun d' hd' => ?_⟩
      rcases List.mem_cons.1 hd' with heq | hd'
      · exact hprop d' heq
      · exact hfront d' hd'
    unfold takeDirective? at h
    cases prop with
    | plain a => exact hnext (fun d' heq => by cases heq) h
    | directive d' =>
      dsimp only at h
      split at h
      next hname =>
        cases h
        exact ⟨[], props, rfl, rfl, beq_iff_eq.1 hname, by simp⟩
      next hname =>
        refine hnext (fun d'' heq => ?_) h
        cases heq
        exact fun heq => hname (beq_iff_eq.2 heq)

theorem takeDirective?_eq_none {name : String} {props : List TagProp} (h : takeDirective? name props = none) :
    ∀ d, .directive d ∈ props → d.name ≠ name := by
  induction props with
  | nil => simp
  | cons prop props ih =>
    unfold takeDirective? at h
    cases prop with
    | plain a =>
      intro d hd
      rcases List.mem_cons.1 hd with heq | hd
      · cases heq
      · exact ih (by simpa using h) d hd
    | directive d' =>
      dsimp only at h
      split at h
      · cases h
      next hname =>
        intro d hd
        rcases List.mem_cons.1 hd with heq | hd
        · cases heq
          exact fun heq => hname (beq_iff_eq.2 heq)
        · exact ih (by simpa using h) d hd

/-- The property as a directive. -/
def TagProp.directive? : TagProp → Option Directive
  | .directive d => some d
  | .plain _ => none

theorem TagProp.directive?_eq_some {prop : TagProp} {d : Directive} :
    prop.directive? = some d ↔ prop = .directive d := by
  cases prop <;> simp [TagProp.directive?]

theorem Tag.directive?_eq_find? (tag : Tag) (name : String) :
    tag.directive? name = (tag.props.filterMap TagProp.directive?).find? (·.name == name) := rfl

/-- No directive of the name is found where there is none. -/
theorem find?_directive_eq_none {props : List TagProp} {name : String}
    (h : ∀ d, .directive d ∈ props → d.name ≠ name) :
    (props.filterMap TagProp.directive?).find? (·.name == name) = none := by
  refine List.find?_eq_none.2 fun d hd => ?_
  obtain ⟨prop, hprop, hsome⟩ := List.mem_filterMap.1 hd
  obtain rfl := TagProp.directive?_eq_some.1 hsome
  simpa using h d hprop

/-- The directive that is taken is the one that is found, and those of other names stay. -/
theorem Tag.take?_eq_some {tag tag' : Tag} {name : String} {d : Directive}
    (h : tag.take? name = some (d, tag')) :
    tag.directive? name = some d ∧ ∀ other, other ≠ name → tag'.directive? other = tag.directive? other := by
  obtain ⟨⟨d', rest⟩, htake, heq⟩ := Option.map_eq_some_iff.1 h
  cases heq
  obtain ⟨front, back, hprops, rfl, hname, hfront⟩ := takeDirective?_split htake
  have hdirective : TagProp.directive? (.directive d) = some d := rfl
  refine ⟨?_, fun other hother => ?_⟩
  · rw [directive?_eq_find?, hprops, List.filterMap_append, List.filterMap_cons_some hdirective,
      List.find?_append, find?_directive_eq_none hfront, Option.none_or]
    exact List.find?_cons_of_pos (beq_iff_eq.2 hname)
  · have hne : ¬ (d.name == other) = true := by
      rw [beq_iff_eq, hname]
      exact fun heq => hother heq.symm
    rw [directive?_eq_find?, directive?_eq_find?, hprops, List.filterMap_append, List.filterMap_append,
      List.filterMap_cons_some hdirective, List.find?_append, List.find?_append]
    exact congrArg _ (List.find?_cons_of_neg (p := fun e : Directive => e.name == other) hne).symm

theorem Tag.take?_eq_none {tag : Tag} {name : String} (h : tag.take? name = none) : tag.directive? name = none :=
  find?_directive_eq_none (takeDirective?_eq_none (Option.map_eq_none_iff.1 h))

/-- Whether the tag makes a later branch of a chain, and if so, whether one with a condition. -/
def Tag.elseBranch? (tag : Tag) : Option Bool :=
  match tag.directive? "else-if" with
  | some d => some d.exp.isSome
  | none => (tag.directive? "else").map fun _ => false

/-- Whether the tag starts a chain, and if so, whether with a condition. -/
def Tag.ifBranch? (tag : Tag) : Option Bool := (tag.directive? "if").map (·.exp.isSome)

theorem Tag.takeElse?_eq_none {tag : Tag} (h : tag.takeElse? = none) : tag.elseBranch? = none := by
  unfold Tag.takeElse? at h
  split at h
  next => cases h
  next hif =>
    rw [elseBranch?, take?_eq_none hif, take?_eq_none (Option.map_eq_none_iff.1 h)]
    rfl

/-- A later branch, and what is left of its tag. -/
theorem Tag.takeElse?_eq_some {tag tag' : Tag} {condition : Option Expression}
    (h : tag.takeElse? = some (condition, tag')) :
    tag.elseBranch? = some condition.isSome ∧ tag'.ifBranch? = tag.ifBranch? := by
  unfold Tag.takeElse? at h
  split at h
  next d tag'' htake =>
    cases h
    obtain ⟨hfound, hothers⟩ := take?_eq_some htake
    exact ⟨by rw [elseBranch?, hfound], by rw [ifBranch?, ifBranch?, hothers "if" (by decide)]⟩
  next hif =>
    obtain ⟨⟨d, tag''⟩, htake, heq⟩ := Option.map_eq_some_iff.1 h
    cases heq
    obtain ⟨hfound, hothers⟩ := take?_eq_some htake
    refine ⟨?_, by rw [ifBranch?, ifBranch?, hothers "if" (by decide)]⟩
    rw [elseBranch?, take?_eq_none hif, hfound]
    rfl

/-! ## 3. Siblings as they are written -/

/-- The node fits behind siblings that end in a chain, whose last branch has a condition or has none, or in no
chain: it does not start a chain without a condition, and does not go on with a chain that ends without one. -/
def Node.Fits (ending : Option Bool) : Node → Prop
  | .element tag _ =>
    match tag.elseBranch?, ending with
    | some _, some conditional => conditional = true
    | _, _ => ∀ conditional ∈ tag.ifBranch?, conditional = true
  | _ => True

/-- What the siblings end in behind the node. -/
def Node.after (ending : Option Bool) : Node → Option Bool
  | .element tag _ =>
    match tag.elseBranch?, ending with
    | some conditional, some _ => some conditional
    | _, _ => tag.ifBranch?
  | node => if node.isGap then ending else none

mutual

/-- No element inside the node is out of place. -/
def Node.Orderly : Node → Prop
  | .element _ children => siblingsOrderly none children
  | _ => True

/-- No element among the siblings, or inside one of them, is out of place. -/
def siblingsOrderly (ending : Option Bool) : List Node → Prop
  | [] => True
  | node :: rest => node.Orderly ∧ node.Fits ending ∧ siblingsOrderly (node.after ending) rest

end

/-- The node is one that is read: no chain and no loop. -/
inductive Node.Raw : Node → Prop
  | element (tag : Tag) (children : List Node) (h : ∀ child ∈ children, child.Raw) : (element tag children).Raw
  | text (content : String) (span : Span) : (text content span).Raw
  | comment (content : String) (span : Span) : (comment content span).Raw
  | interpolation (content : Expression) (span : Span) : (interpolation content span).Raw

/-! ## 4. Reading -/

/-- All nodes of the builder are as they are read. -/
structure Builder.Raw (b : Builder) : Prop where
  here : ∀ node ∈ b.here, node.Raw
  opened : ∀ o ∈ b.opened, ∀ node ∈ o.siblings, node.Raw

namespace Builder.Raw

variable {b : Builder}

theorem report (h : b.Raw) (fault : Fault) : (b.report fault).Raw := ⟨h.here, h.opened⟩

theorem add (h : b.Raw) {node : Node} (hnode : node.Raw) : (b.add node).Raw :=
  ⟨List.forall_mem_cons.2 ⟨hnode, h.here⟩, h.opened⟩

/-- An element that ends takes the nodes that are complete for its children. -/
theorem closeElement (h : b.Raw) {o : OpenElement} {outer : List OpenElement} (hopened : b.opened = o :: outer)
    (endName : Option Span) (stop : Nat) : ∀ node ∈ b.closeElement o endName stop, node.Raw :=
  List.forall_mem_cons.2 ⟨.element _ _ fun child hchild => h.here child (List.mem_reverse.1 hchild),
    h.opened o (by simp [hopened])⟩

theorem abandon (h : b.Raw) (stop count : Nat) : (b.abandon stop count).Raw := by
  induction count generalizing b with
  | zero => exact h
  | succ count ih =>
    rw [Builder.abandon]
    split
    · exact h
    next o outer hopened =>
      exact ih ⟨(h.report _).closeElement hopened none stop,
        fun other hmem => h.opened other (by simp [hopened, hmem])⟩

theorem closeInnermost (h : b.Raw) (endName : Span) (stop : Nat) : (b.closeInnermost endName stop).Raw := by
  rw [Builder.closeInnermost]
  split
  · exact h
  next o outer hopened =>
    exact ⟨h.closeElement hopened _ stop, fun other hmem => h.opened other (by simp [hopened, hmem])⟩

theorem addPiece (h : b.Raw) (piece : Piece) : (b.addPiece piece).Raw := by
  have hb : ((piece.fault?.map b.report).getD b).Raw := by
    cases piece.fault? with
    | none => exact h
    | some fault => exact h.report fault
  unfold Builder.addPiece
  dsimp only
  generalize (piece.fault?.map b.report).getD b = b' at hb
  cases piece with
  | comment => exact hb.add (.comment _ _)
  | text => exact hb.add (.text _ _)
  | interpolation => exact hb.add (.interpolation _ _)
  | unclosedInterpolation => exact hb.add (.text _ _)
  | openTag tag =>
    simp only
    split
    · exact hb.add (.element _ _ (by simp))
    · exact ⟨by simp, List.forall_mem_cons.2 ⟨hb.here, hb.opened⟩⟩
  | closeTag name nameSpan span =>
    simp only
    split
    · exact hb.report _
    · exact (hb.abandon _ _).closeInnermost _ _

end Builder.Raw

/-- **The tree that is read holds no chains and no loops.** -/
theorem build_raw (source : List Char) : ∀ node ∈ (build source).1, node.Raw := by
  have hfold : ∀ (ps : List Piece) (b : Builder), b.Raw → (ps.foldl Builder.addPiece b).Raw := by
    intro ps
    induction ps with
    | nil => exact fun b hb => hb
    | cons p ps ih => exact fun b hb => ih _ (hb.addPiece p)
  intro node hnode
  exact ((hfold _ {} ⟨by simp, by simp⟩).abandon _ _).here node (List.mem_reverse.1 hnode)

/-! ## 5. Lifting -/

section

variable {tag : Tag} {children : List Node}

/-- A loop around an element holds no chain but those of the element. -/
theorem liftLoop_chains : (liftLoop tag children).1.chains = nodeChains children := by
  unfold liftLoop
  split
  · rw [Node.chains]
  · split
    · rw [Node.chains]
    · rw [Node.chains]
      split
      · rfl
      · rw [nodeChains, nodeChains, Node.chains, List.append_nil]

theorem branchChildren_chains : nodeChains (branchChildren tag children).1 = nodeChains children := by
  unfold branchChildren
  split
  · rfl
  · rw [nodeChains, nodeChains, List.append_nil]
    exact liftLoop_chains

end

theorem Node.chains_of_isGap {node : Node} (h : node.isGap = true) : node.chains = [] := by
  cases node with
  | text => rw [Node.chains]
  | comment => rw [Node.chains]
  | element => simp [Node.isGap] at h
  | interpolation => simp [Node.isGap] at h
  | chain => simp [Node.isGap] at h
  | loop => simp [Node.isGap] at h

namespace Lifting

/-- What the siblings lifted so far end in. -/
def ending? (s : Lifting) : Option Bool :=
  match s.done with
  | .chain branches _ :: _ => some (branches.getLast?.any (·.isConditional))
  | _ => none

/-- The gap holds no chain, and every chain has a branch. -/
structure Regular (s : Lifting) : Prop where
  gap : nodeChains s.gap = []
  ne_nil : ∀ branches ∈ nodeChains s.done, branches ≠ []

variable {s : Lifting} {tag : Tag} {children : List Node}

/-- A node is added whose chains are known. -/
theorem add_spec (hs : s.Regular) (node : Node) (hnode : ∀ branches ∈ node.chains, branches ≠ [])
    (faults : List Fault) :
    (s.add node faults).Regular ∧ (Sound (s.add node faults).done ↔ Sound s.done ∧ Sound [node]) := by
  have hchains : nodeChains (s.add node faults).done = node.chains ++ nodeChains s.done := by
    rw [add, nodeChains, nodeChains_append, hs.gap, List.nil_append]
  refine ⟨⟨rfl, fun branches hmem => ?_⟩, ?_⟩
  · rw [hchains] at hmem
    rcases List.mem_append.1 hmem with hmem | hmem
    · exact hnode branches hmem
    · exact hs.ne_nil branches hmem
  · simp only [Sound, hchains, nodeChains, List.append_nil, List.mem_append, or_imp, forall_and]
    exact and_comm

theorem ending?_add {node : Node} (hnode : ∀ branches span, node ≠ .chain branches span) (faults : List Fault) :
    (s.add node faults).ending? = none := by
  cases node with
  | chain branches span => exact absurd rfl (hnode branches span)
  | element => rfl
  | text => rfl
  | comment => rfl
  | interpolation => rfl
  | loop => rfl

theorem endsInChain_eq (s : Lifting) : s.endsInChain = s.ending?.isSome := by
  cases hdone : s.done with
  | nil => simp [endsInChain, ending?, hdone]
  | cons node before => cases node <;> simp [endsInChain, ending?, hdone]

/-- An element that starts a chain or belongs to none. -/
theorem addElement_chains (hs : s.Regular) (hchildren : ∀ branches ∈ nodeChains children, branches ≠ []) :
    (s.addElement tag children).Regular ∧ (s.addElement tag children).ending? = tag.ifBranch? ∧
      (Sound (s.addElement tag children).done ↔
        Sound s.done ∧ Sound children ∧ ∀ conditional ∈ tag.ifBranch?, conditional = true) := by
  unfold addElement
  split
  next d tag' htake =>
    have hif : tag.ifBranch? = some d.exp.isSome := by rw [Tag.ifBranch?, (Tag.take?_eq_some htake).1]; rfl
    have hchains : (Node.chain [.mk d.exp (branchChildren tag' children).1 tag'.span] tag'.span).chains =
        [.mk d.exp (branchChildren tag' children).1 tag'.span] :: nodeChains children := by
      rw [Node.chains, branchChains, branchChains, List.append_nil, branchChildren_chains]
    obtain ⟨hregular, hsound⟩ := add_spec hs (.chain _ _)
      (by rw [hchains]; exact List.forall_mem_cons.2 ⟨by simp, hchildren⟩) (branchChildren tag' children).2
    refine ⟨hregular, by rw [hif]; rfl, hsound.trans (and_congr_right fun _ => ?_)⟩
    rw [hif, Sound, nodeChains, nodeChains, List.append_nil, hchains, List.forall_mem_cons, wellShaped_single,
      and_comm]
    simp [Sound, Branch.isConditional]
  next hnone =>
    have hif : tag.ifBranch? = none := by rw [Tag.ifBranch?, Tag.take?_eq_none hnone]; rfl
    have hplain : ∀ branches span, (liftLoop tag children).1 ≠ .chain branches span := by
      intro branches span
      unfold liftLoop
      split
      · simp
      · split <;> simp
    obtain ⟨hregular, hsound⟩ := add_spec hs (liftLoop tag children).1
      (by rwa [liftLoop_chains]) (liftLoop tag children).2
    refine ⟨hregular, by rw [hif]; exact ending?_add hplain _, hsound.trans (and_congr_right fun _ => ?_)⟩
    rw [hif, Sound, nodeChains, nodeChains, List.append_nil, liftLoop_chains]
    simp [Sound]

/-- A later branch goes to the chain in front. -/
theorem extend_chains {branches : List Branch} {span : Span} {before : List Node} (hs : s.Regular)
    (hdone : s.done = .chain branches span :: before)
    (hchildren : ∀ branches ∈ nodeChains children, branches ≠ []) (condition : Option Expression) (place whole : Span)
    (faults : List Fault) {inside : List Node} (hinside : nodeChains inside = nodeChains children) :
    let next : Lifting :=
      { done := .chain (branches ++ [.mk condition inside place]) whole :: before, gap := [], faults := faults }
    next.Regular ∧ next.ending? = some condition.isSome ∧
      (Sound next.done ↔
        Sound s.done ∧ Sound children ∧ branches.getLast?.any (·.isConditional) = true) := by
  intro next
  have hold : nodeChains s.done = branches :: (branchChains branches ++ nodeChains before) := by
    rw [hdone, nodeChains, Node.chains, List.cons_append]
  have hnew : nodeChains next.done = (branches ++ [.mk condition inside place]) ::
      (branchChains branches ++ nodeChains children ++ nodeChains before) := by
    simp only [next, nodeChains, Node.chains, branchChains_append, branchChains, hinside, List.append_nil,
      List.cons_append]
  have hne_nil := hs.ne_nil
  rw [hold, List.forall_mem_cons] at hne_nil
  refine ⟨⟨rfl, ?_⟩, ?_, ?_⟩
  · rw [hnew, List.forall_mem_cons]
    refine ⟨by simp, fun bs hbs => ?_⟩
    rcases List.mem_append.1 hbs with hbs | hbs
    · rcases List.mem_append.1 hbs with hbs | hbs
      · exact hne_nil.2 bs (List.mem_append_left _ hbs)
      · exact hchildren bs hbs
    · exact hne_nil.2 bs (List.mem_append_right _ hbs)
  · simp [next, ending?, Branch.isConditional]
  · rw [Sound, Sound, hold, hnew, List.forall_mem_cons, List.forall_mem_cons, wellShaped_concat hne_nil.1]
    simp only [Sound, List.mem_append, or_imp, forall_and]
    constructor
    · rintro ⟨⟨hshape, hlast⟩, ⟨hinner, hown⟩, hbefore⟩
      exact ⟨⟨hshape, hinner, hbefore⟩, hown, hlast⟩
    · rintro ⟨⟨hshape, hinner, hbefore⟩, hown, hlast⟩
      exact ⟨⟨hshape, hlast⟩, ⟨hinner, hown⟩, hbefore⟩

/-- **The next sibling** leaves all chains well shaped if they were so and it fits. -/
theorem addSibling_chains (hs : s.Regular) {node : Node} (hplain : ∀ branches span, node ≠ .chain branches span)
    (hnode : ∀ branches ∈ node.chains, branches ≠ []) :
    (s.addSibling node).Regular ∧ (s.addSibling node).ending? = node.after s.ending? ∧
      (Sound (s.addSibling node).done ↔ Sound s.done ∧ Sound [node] ∧ node.Fits s.ending?) := by
  unfold addSibling
  split
  next tag children =>
    rw [Node.chains] at hnode
    have hinside : Sound [.element tag children] ↔ Sound children := by simp [Sound, nodeChains, Node.chains]
    rw [hinside]
    split
    next hnone =>
      have helse := Tag.takeElse?_eq_none hnone
      simpa only [Node.after, Node.Fits, helse] using addElement_chains hs hnode
    next condition tag' htake =>
      obtain ⟨helse, hif⟩ := Tag.takeElse?_eq_some htake
      split
      next branches span before hdone =>
        have hending : s.ending? = some (branches.getLast?.any (·.isConditional)) := by simp [ending?, hdone]
        simp only [Node.after, Node.Fits, helse, hending]
        exact extend_chains hs hdone hnode _ _ _ _ branchChildren_chains
      next hother =>
        have hending : s.ending? = none := by
          unfold ending?
          split
          next branches span before hdone => exact absurd hdone (hother branches span before)
          next => rfl
        simpa only [Node.after, Node.Fits, helse, hending, hif] using @addElement_chains s tag' children hs hnode
  next hother =>
    have hafter : node.after s.ending? = if node.isGap then s.ending? else none := by
      cases node with
      | element tag children => exact absurd rfl (hother tag children)
      | text => rfl
      | comment => rfl
      | interpolation => rfl
      | chain => rfl
      | loop => rfl
    have hfits : node.Fits s.ending? := by
      cases node with
      | element tag children => exact absurd rfl (hother tag children)
      | text => trivial
      | comment => trivial
      | interpolation => trivial
      | chain => trivial
      | loop => trivial
    rw [hafter, and_iff_left hfits]
    by_cases hgap : (node.isGap && s.endsInChain) = true
    · rw [if_pos hgap]
      rw [Bool.and_eq_true] at hgap
      have hchains := Node.chains_of_isGap hgap.1
      refine ⟨⟨by rw [nodeChains, hchains, hs.gap, List.nil_append], hs.ne_nil⟩, by rw [if_pos hgap.1]; rfl, ?_⟩
      simp [Sound, nodeChains, hchains]
    · rw [if_neg hgap]
      obtain ⟨hregular, hsound⟩ := add_spec hs node hnode []
      refine ⟨hregular, ?_, hsound⟩
      rw [ending?_add hplain]
      rw [endsInChain_eq, Bool.and_eq_true, not_and] at hgap
      split
      next hblank => exact (Option.not_isSome_iff_eq_none.1 (hgap hblank)).symm
      next => rfl

/-- The gap adds no chains, and the order of siblings does not matter. -/
theorem Regular.mem_nodes (hs : s.Regular) (branches : List Branch) :
    branches ∈ nodeChains s.nodes ↔ branches ∈ nodeChains s.done := by
  have hreverse : ∀ nodes : List Node, branches ∈ nodeChains nodes.reverse ↔ branches ∈ nodeChains nodes := by
    intro nodes
    simp only [mem_nodeChains, List.mem_reverse]
  rw [nodes, hreverse, nodeChains_append, hs.gap, List.nil_append]

theorem Regular.sound_nodes (hs : s.Regular) : Sound s.nodes ↔ Sound s.done := by
  simp only [Sound, hs.mem_nodes]

theorem regular_empty : Regular {} := ⟨rfl, by simp [nodeChains]⟩

theorem sound_empty : Sound ({} : Lifting).done := by simp [Sound, nodeChains]

end Lifting

mutual

/-- The chains inside a node whose children are lifted. -/
theorem Node.liftInside_chains : ∀ node : Node, node.Raw →
    (∀ branches ∈ node.liftInside.1.chains, branches ≠ []) ∧ (Sound [node.liftInside.1] ↔ node.Orderly)
  | .element tag children, h => by
    have hchildren : ∀ child ∈ children, child.Raw := by
      cases h with
      | element _ _ h => exact h
    obtain ⟨hregular, hsound⟩ := liftFrom_chains {} children Lifting.regular_empty hchildren
    rw [and_iff_right Lifting.sound_empty, ← hregular.sound_nodes] at hsound
    rw [Node.liftInside, Node.chains, Node.Orderly]
    refine ⟨fun branches hmem => hregular.ne_nil branches ((hregular.mem_nodes branches).1 hmem), ?_⟩
    rw [Sound, nodeChains, Node.chains, nodeChains, List.append_nil]
    exact hsound
  | .text _ _, _ => by simp [Node.liftInside, Node.chains, Sound, nodeChains, Node.Orderly]
  | .comment _ _, _ => by simp [Node.liftInside, Node.chains, Sound, nodeChains, Node.Orderly]
  | .interpolation _ _, _ => by simp [Node.liftInside, Node.chains, Sound, nodeChains, Node.Orderly]
  | .chain _ _, h => by cases h
  | .loop _ _ _, h => by cases h

/-- **Siblings** are lifted to well-shaped chains exactly if no element is out of place. -/
theorem liftFrom_chains : ∀ (s : Lifting) (nodes : List Node), s.Regular → (∀ node ∈ nodes, node.Raw) →
    (liftFrom s nodes).Regular ∧
      (Sound (liftFrom s nodes).done ↔ Sound s.done ∧ siblingsOrderly s.ending? nodes)
  | s, [], hs, _ => ⟨hs, by simp [liftFrom, siblingsOrderly]⟩
  | s, node :: rest, hs, h => by
    obtain ⟨hnode, hrest⟩ := List.forall_mem_cons.1 h
    obtain ⟨hne_nil, hsound⟩ := Node.liftInside_chains node hnode
    have hsame : node.liftInside.1.after s.ending? = node.after s.ending? ∧
        (node.liftInside.1.Fits s.ending? ↔ node.Fits s.ending?) ∧
        ∀ branches span, node.liftInside.1 ≠ .chain branches span := by
      cases hnode <;> simp [Node.liftInside, Node.after, Node.Fits, Node.isGap]
    obtain ⟨hafter, hfits, hplain⟩ := hsame
    obtain ⟨hregular, hending, hstep⟩ := Lifting.addSibling_chains
      (s := { s with faults := s.faults ++ node.liftInside.2 }) ⟨hs.gap, hs.ne_nil⟩ hplain hne_nil
    obtain ⟨hwhole, hiff⟩ := liftFrom_chains _ rest hregular hrest
    rw [liftFrom]
    refine ⟨hwhole, hiff.trans ?_⟩
    rw [hending, hstep, hsound, siblingsOrderly]
    rw [show Lifting.ending? { s with faults := s.faults ++ node.liftInside.2 } = s.ending? from rfl, hafter, hfits]
    simp only [and_assoc]

end

/-- **The chains of a tree** are well shaped exactly if no element of the text is out of place, and each of them
has a branch. -/
theorem parse_chains (source : String) :
    (Sound (parse source).nodes ↔ siblingsOrderly none (build source.toList).1) ∧
      ∀ branches ∈ nodeChains (parse source).nodes, branches ≠ [] := by
  obtain ⟨hregular, hsound⟩ := liftFrom_chains {} (build source.toList).1 Lifting.regular_empty
    (build_raw source.toList)
  rw [and_iff_right Lifting.sound_empty, ← hregular.sound_nodes] at hsound
  exact ⟨hsound, fun branches hmem => hregular.ne_nil branches ((hregular.mem_nodes branches).1 hmem)⟩

end ComponentLens.Markup
