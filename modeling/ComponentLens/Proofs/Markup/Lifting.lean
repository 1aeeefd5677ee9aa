/-
# What lifting keeps

Lifting moves nodes into chains and loops, unwraps `template` elements and drops what stands between the branches
of a chain.  Read from front to back with chains and loops seen through (`Item`, `nodeItems`), the tree holds
what it held before, apart from that.

`fates` tells of every item of the tree that is read what becomes of it.  Lifting holds comments and blank text
behind a chain back until it knows whether the chain goes on (`Lifting.gap`); `fates` looks ahead for the same
answer instead (`goesOn`).  The two agree along every prefix of the siblings, if what is held back counts as kept
exactly when the chain does not go on (`Lifting.held`): this is what `liftFrom_items` carries, and `parse_items`
states for every text.
-/
import ComponentLens.Proofs.Markup.Braces
import ComponentLens.Proofs.Markup.Chains
import Mathlib.Data.List.Forall2

namespace ComponentLens.Markup

/-! ## 1. Items -/

/-- What is read of a template, from front to back. -/
inductive Item where
  | element (tag : Tag)
  | text (content : String) (span : Span)
  | comment (content : String) (span : Span)
  | interpolation (content : Expression) (span : Span)
  deriving DecidableEq

mutual

/-- The items of a node, in order.  Chains and loops are seen through. -/
def Node.items : Node → List Item
  | .element tag children => .element tag :: nodeItems children
  | .text content span => [.text content span]
  | .comment content span => [.comment content span]
  | .interpolation content span => [.interpolation content span]
  | .chain branches _ => branchItems branches
  | .loop _ children _ => nodeItems children

/-- The items of siblings, in order. -/
def nodeItems : List Node → List Item
  | [] => []
  | node :: rest => node.items ++ nodeItems rest

/-- The items of the branches of a chain, in order. -/
def branchItems : List Branch → List Item
  | [] => []
  | .mk _ children _ :: rest => nodeItems children ++ branchItems rest

end

theorem nodeItems_append (xs ys : List Node) : nodeItems (xs ++ ys) = nodeItems xs ++ nodeItems ys := by
  induction xs with
  | nil => rfl
  | cons x xs ih => simp [nodeItems, ih]

theorem nodeItems_single (node : Node) : nodeItems [node] = node.items := by
  rw [nodeItems, nodeItems, List.append_nil]

theorem branchItems_append (xs ys : List Branch) : branchItems (xs ++ ys) = branchItems xs ++ branchItems ys := by
  induction xs with
  | nil => rfl
  | cons x xs ih =>
    obtain ⟨condition, children, span⟩ := x
    simp [branchItems, ih]

namespace Item

/-- The item as the tag of an element. -/
def tag? : Item → Option Tag
  | .element tag => some tag
  | _ => none

def isInterpolation : Item → Bool
  | .interpolation _ _ => true
  | _ => false

/-- Whether the item is text that is not blank. -/
def isSolidText : Item → Bool
  | .text content _ => content.toList.any fun c => !isBlank c
  | _ => false

end Item

/-! ## 2. What is left of a tag -/

/-- The directives that are lifted out of elements. -/
def structuralNames : List String := ["if", "else-if", "else", "for"]

/-- Whether the property is a directive that is lifted. -/
def TagProp.isStructural : TagProp → Bool
  | .directive d => structuralNames.contains d.name
  | .plain _ => false

/-- **The second tag is the first one without some of the directives that are lifted.** -/
structure Tag.Sheds (before after : Tag) : Prop where
  same : after = { before with props := after.props }
  sublist : after.props.Sublist before.props
  others : after.props.filter (!·.isStructural) = before.props.filter (!·.isStructural)

namespace Tag

variable {tag tag' : Tag} {name : String} {d : Directive}

theorem Sheds.refl (tag : Tag) : tag.Sheds tag := ⟨rfl, .refl _, rfl⟩

theorem Sheds.trans {a b c : Tag} (h : a.Sheds b) (h' : b.Sheds c) : a.Sheds c := by
  refine ⟨?_, h'.sublist.trans h.sublist, h'.others.trans h.others⟩
  rw [h'.same, h.same]

theorem Sheds.of_take? (h : tag.take? name = some (d, tag')) (hname : name ∈ structuralNames) :
    tag.Sheds tag' := by
  obtain ⟨⟨d', rest⟩, htake, heq⟩ := Option.map_eq_some_iff.1 h
  cases heq
  obtain ⟨front, back, hprops, hrest, hd, -⟩ := takeDirective?_split htake
  have hstructural : TagProp.isStructural (.directive d) = true := by
    rw [TagProp.isStructural, hd]
    exact List.contains_iff_mem.2 hname
  refine ⟨rfl, ?_, ?_⟩
  · rw [hprops, hrest]
    exact (List.Sublist.refl front).append (List.sublist_cons_self _ _)
  · rw [hprops, hrest, List.filter_append, List.filter_append,
      List.filter_cons_of_neg (by simp [hstructural])]

/-- Whether the tag has a loop that can be read. -/
def hasLoop (tag : Tag) : Bool := (tag.directive? "for").any fun d => (d.exp.bind Loop.ofExpression?).isSome

/-- Whether the tag makes a branch behind siblings with the given end. -/
def isBranch (ending : Option Bool) (tag : Tag) : Bool :=
  tag.ifBranch?.isSome || (tag.elseBranch?.isSome && ending.isSome)

/-- Whether only the children of the element are left, given whether it is a branch: it is a group, and it is a
loop or, without a directive for one, a branch. -/
def isUnwrapped (branch : Bool) (tag : Tag) : Bool :=
  tag.isGroup && if (tag.directive? "for").isSome then tag.hasLoop else branch

/-- What the element itself adds to the items. -/
def ownItems (branch : Bool) (tag : Tag) : List Item := if tag.isUnwrapped branch then [] else [.element tag]

/-- The second tag is what is left of the first when the directives of a branch are taken. -/
structure Opens (before after : Tag) : Prop where
  sheds : before.Sheds after
  isUnwrapped : ∀ branch, after.isUnwrapped branch = before.isUnwrapped branch

theorem Opens.refl (tag : Tag) : tag.Opens tag := ⟨.refl tag, fun _ => rfl⟩

theorem Opens.trans {a b c : Tag} (h : a.Opens b) (h' : b.Opens c) : a.Opens c :=
  ⟨h.sheds.trans h'.sheds, fun branch => (h'.isUnwrapped branch).trans (h.isUnwrapped branch)⟩

/-- A group stays one if another directive than that of a slot is taken. -/
theorem take?_isGroup (h : tag.take? name = some (d, tag')) (hname : "slot" ≠ name) : tag'.isGroup = tag.isGroup := by
  have hslot := (take?_eq_some h).2 "slot" hname
  obtain ⟨⟨d', rest⟩, -, heq⟩ := Option.map_eq_some_iff.1 h
  cases heq
  rw [isGroup, isGroup, hslot]

theorem Opens.of_take? (h : tag.take? name = some (d, tag')) (hname : name ∈ ["if", "else-if", "else"]) :
    tag.Opens tag' := by
  have hnames : name ∈ structuralNames ∧ "slot" ≠ name ∧ "for" ≠ name := by
    simp only [List.mem_cons, List.not_mem_nil, or_false] at hname
    obtain rfl | rfl | rfl := hname <;> decide
  obtain ⟨hstructural, hslot, hfor⟩ := hnames
  refine ⟨.of_take? h hstructural, fun branch => ?_⟩
  rw [Tag.isUnwrapped, Tag.isUnwrapped, hasLoop, hasLoop, take?_isGroup h hslot, (take?_eq_some h).2 "for" hfor]

theorem Opens.of_takeElse? {condition : Option Expression} (h : tag.takeElse? = some (condition, tag')) :
    tag.Opens tag' := by
  unfold takeElse? at h
  split at h
  next d tag'' htake =>
    cases h
    exact .of_take? htake (by decide)
  · obtain ⟨⟨d, tag''⟩, htake, heq⟩ := Option.map_eq_some_iff.1 h
    cases heq
    exact .of_take? htake (by decide)

/-- A directive that is found is among the properties. -/
theorem any_isStructural (h : (tag.directive? name).isSome = true) (hname : name ∈ structuralNames) :
    tag.props.any TagProp.isStructural = true := by
  obtain ⟨d, hd⟩ := Option.isSome_iff_exists.1 h
  rw [directive?_eq_find?] at hd
  obtain ⟨prop, hprop, hsome⟩ := List.mem_filterMap.1 (List.mem_of_find?_eq_some hd)
  obtain rfl := TagProp.directive?_eq_some.1 hsome
  refine List.any_eq_true.2 ⟨_, hprop, ?_⟩
  have hfound : d.name = name := by simpa using List.find?_some hd
  rw [TagProp.isStructural, hfound]
  exact List.contains_iff_mem.2 hname

/-- An element is unwrapped only for a directive that is lifted. -/
theorem isUnwrapped_spec {ending : Option Bool} (h : tag.isUnwrapped (tag.isBranch ending) = true) :
    tag.isGroup = true ∧ tag.props.any TagProp.isStructural = true := by
  rw [isUnwrapped, Bool.and_eq_true] at h
  refine ⟨h.1, ?_⟩
  by_cases hfor : (tag.directive? "for").isSome = true
  · exact any_isStructural hfor (by decide)
  · have hbranch := h.2
    rw [if_neg hfor, isBranch, Bool.or_eq_true, Bool.and_eq_true] at hbranch
    rcases hbranch with hif | ⟨helse, -⟩
    · rw [ifBranch?, Option.isSome_map] at hif
      exact any_isStructural hif (by decide)
    · rw [elseBranch?] at helse
      split at helse
      next d hd =>
        have hfound : (tag.directive? "else-if").isSome = true := by rw [hd]; rfl
        exact any_isStructural hfound (by decide)
      next =>
        rw [Option.isSome_map] at helse
        exact any_isStructural helse (by decide)

end Tag

/-! ## 3. What becomes of the items -/

/-- What becomes of an item. -/
inductive Fate where
  | stays
  /-- The element is replaced by its children. -/
  | unwrapped
  | dropped
  deriving DecidableEq

/-- Whether the siblings go on with a later branch, comments and blank text in front of it aside. -/
def goesOn : List Node → Bool
  | [] => false
  | .element tag _ :: _ => tag.elseBranch?.isSome
  | node :: rest => node.isGap && goesOn rest

/-- Whether the node is a comment or blank text between two branches of one chain: the siblings in front of it end
in a chain, and those behind it go on with it. -/
def Node.isBetween (ending : Option Bool) (node : Node) (rest : List Node) : Bool :=
  node.isGap && ending.isSome && goesOn rest

mutual

/-- What becomes of the items of a node that is not dropped. -/
def Node.fates (ending : Option Bool) : Node → List (Item × Fate)
  | .element tag children =>
    (.element tag, if tag.isUnwrapped (tag.isBranch ending) then .unwrapped else .stays) :: fates none children
  | node => node.items.map fun item => (item, .stays)

/-- What becomes of the items of siblings, given what the siblings in front of them end in. -/
def fates (ending : Option Bool) : List Node → List (Item × Fate)
  | [] => []
  | node :: rest =>
    (if node.isBetween ending rest then node.items.map fun item => (item, .dropped) else node.fates ending) ++
      fates (node.after ending) rest

end

/-- The items that stay. -/
def staying (told : List (Item × Fate)) : List Item := (told.filter (·.2 = .stays)).map (·.1)

@[simp] theorem staying_append (xs ys : List (Item × Fate)) : staying (xs ++ ys) = staying xs ++ staying ys := by
  simp [staying]

@[simp] theorem staying_nil : staying [] = [] := rfl

@[simp] theorem staying_stays (is : List Item) : staying (is.map fun item => (item, .stays)) = is := by
  simp [staying, List.filter_map, Function.comp_def]

@[simp] theorem staying_dropped (is : List Item) : staying (is.map fun item => (item, .dropped)) = [] := by
  simp [staying, List.filter_map, Function.comp_def]

/-- The element stays unless it is unwrapped, and so do the items inside it that stay. -/
theorem staying_element (ending : Option Bool) (tag : Tag) (children : List Node) :
    staying ((Node.element tag children).fates ending) =
      tag.ownItems (tag.isBranch ending) ++ staying (fates none children) := by
  rw [Node.fates, Tag.ownItems]
  by_cases h : tag.isUnwrapped (tag.isBranch ending) = true <;> simp [staying, h]

mutual

/-- The fates of a node are those of its items. -/
theorem Node.fates_fst (ending : Option Bool) : ∀ node : Node, (node.fates ending).map (·.1) = node.items
  | .element tag children => by
    rw [Node.fates, Node.items, List.map_cons, fates_fst none children]
  | .text _ _ => rfl
  | .comment _ _ => rfl
  | .interpolation _ _ => rfl
  | .chain _ _ => by simp [Node.fates, Function.comp_def]
  | .loop _ _ _ => by simp [Node.fates, Function.comp_def]

theorem fates_fst (ending : Option Bool) : ∀ nodes : List Node, (fates ending nodes).map (·.1) = nodeItems nodes
  | [] => by rw [fates, nodeItems, List.map_nil]
  | node :: rest => by
    rw [fates, nodeItems, List.map_append, fates_fst _ rest]
    split
    · simp [Function.comp_def]
    · rw [Node.fates_fst ending node]

end

/-- What may become of an item: only groups with a directive that is lifted are unwrapped, and only comments and
blank text are dropped. -/
def Fate.Befalls : Fate → Item → Prop
  | .stays, _ => True
  | .unwrapped, .element tag => tag.isGroup = true ∧ tag.props.any TagProp.isStructural = true
  | .dropped, .text content _ => ∀ c ∈ content.toList, isBlank c = true
  | .dropped, .comment _ _ => True
  | _, _ => False

/-- What may stand in a gap may be dropped. -/
theorem Node.befalls_of_isGap {node : Node} (h : node.isGap = true) :
    ∀ item ∈ node.items, Fate.dropped.Befalls item := by
  cases node with
  | text content span =>
    rw [Node.items, List.forall_mem_singleton]
    exact isBlank_of_trim_eq_nil (List.isEmpty_iff.1 h)
  | comment content span =>
    rw [Node.items, List.forall_mem_singleton]
    trivial
  | element => simp [Node.isGap] at h
  | interpolation => simp [Node.isGap] at h
  | chain => simp [Node.isGap] at h
  | loop => simp [Node.isGap] at h

mutual

theorem Node.fates_befall (ending : Option Bool) : ∀ node : Node, ∀ x ∈ node.fates ending, x.2.Befalls x.1
  | .element tag children => by
    rw [Node.fates, List.forall_mem_cons]
    refine ⟨?_, fates_befall none children⟩
    split
    next h => exact Tag.isUnwrapped_spec h
    next => trivial
  | .text _ _ => by simp [Node.fates, Fate.Befalls]
  | .comment _ _ => by simp [Node.fates, Fate.Befalls]
  | .interpolation _ _ => by simp [Node.fates, Fate.Befalls]
  | .chain _ _ => by simp [Node.fates, Fate.Befalls]
  | .loop _ _ _ => by simp [Node.fates, Fate.Befalls]

/-- Every item meets a fate that it may meet. -/
theorem fates_befall (ending : Option Bool) : ∀ nodes : List Node, ∀ x ∈ fates ending nodes, x.2.Befalls x.1
  | [] => by simp [fates]
  | node :: rest => by
    rw [fates, List.forall_mem_append]
    refine ⟨?_, fates_befall _ rest⟩
    split
    next h =>
      rw [Node.isBetween, Bool.and_eq_true, Bool.and_eq_true] at h
      intro x hx
      obtain ⟨item, hitem, rfl⟩ := List.mem_map.1 hx
      exact Node.befalls_of_isGap h.1.1 item hitem
    next => exact Node.fates_befall ending node

end

/-! ## 4. Keeping items -/

/-- The item is kept, as an element perhaps without some of the directives that are lifted. -/
inductive Item.Keeps : Item → Item → Prop
  | element {before after : Tag} (h : before.Sheds after) : Keeps (.element before) (.element after)
  | other {item : Item} (h : item.tag? = none) : Keeps item item

theorem Item.Keeps.refl (item : Item) : item.Keeps item := by
  cases item with
  | element tag => exact .element (.refl tag)
  | text => exact .other rfl
  | comment => exact .other rfl
  | interpolation => exact .other rfl

/-- The items are kept one by one, in order. -/
def Keeps (before after : List Item) : Prop := List.Forall₂ Item.Keeps before after

theorem Keeps.refl (is : List Item) : Keeps is is := List.forall₂_same.2 fun item _ => .refl item

theorem Keeps.append {is js is' js' : List Item} (h : Keeps is js) (h' : Keeps is' js') :
    Keeps (is ++ is') (js ++ js') :=
  List.rel_append h h'

/-- A property that no element has tells kept items from others as before. -/
theorem Keeps.filter_eq {is js : List Item} (h : Keeps is js) {p : Item → Bool}
    (hp : ∀ tag, p (.element tag) = false) : js.filter p = is.filter p := by
  induction h with
  | nil => rfl
  | @cons i j is js hij h ih =>
    cases hij with
    | element => rw [List.filter_cons_of_neg (by simp [hp]), List.filter_cons_of_neg (by simp [hp]), ih]
    | other => rw [List.filter_cons, List.filter_cons, ih]

/-- The tags of kept elements. -/
theorem Keeps.tags {is js : List Item} (h : Keeps is js) :
    List.Forall₂ Tag.Sheds (is.filterMap Item.tag?) (js.filterMap Item.tag?) := by
  induction h with
  | nil => exact .nil
  | @cons i j is js hij h ih =>
    cases hij with
    | element hshed => exact .cons hshed ih
    | other hnone => rwa [List.filterMap_cons_none hnone, List.filterMap_cons_none hnone]

section

variable {before tag : Tag} {children : List Node} {is : List Item}

/-- What is left of an element that may be unwrapped. -/
theorem Tag.Opens.keeps_element (h : before.Opens tag) {after : Tag} (hafter : tag.Sheds after) {branch : Bool}
    (hwrapped : tag.isUnwrapped branch = false) (his : Keeps is (nodeItems children)) :
    Keeps (before.ownItems branch ++ is) (Node.element after children).items := by
  rw [Tag.ownItems, ← h.isUnwrapped, if_neg (by simp [hwrapped]), Node.items]
  exact .cons (.element (h.sheds.trans hafter)) his

theorem Tag.Opens.keeps_children (h : before.Opens tag) {branch : Bool}
    (hunwrapped : tag.isUnwrapped branch = true) (his : Keeps is (nodeItems children)) :
    Keeps (before.ownItems branch ++ is) (nodeItems children) := by
  rwa [Tag.ownItems, ← h.isUnwrapped, if_pos hunwrapped, List.nil_append]

/-- **A loop** keeps the element around its children unless the element is a group. -/
theorem liftLoop_items (h : before.Opens tag) (branch : Bool) (hloop : (tag.directive? "for").isSome ∨ branch = false)
    (his : Keeps is (nodeItems children)) :
    Keeps (before.ownItems branch ++ is) (liftLoop tag children).1.items := by
  unfold liftLoop
  split
  next hnone =>
    have hfor := Tag.take?_eq_none hnone
    have hbranch : branch = false := hloop.resolve_left (by simp [hfor])
    exact h.keeps_element (.refl tag) (by simp [Tag.isUnwrapped, hfor, hbranch]) his
  next d tag' htake =>
    have hfor := (Tag.take?_eq_some htake).1
    have hshed : tag.Sheds tag' := .of_take? htake (by decide)
    have hgroup := Tag.take?_isGroup htake (by decide)
    split
    next hnone => exact h.keeps_element hshed (by simp [Tag.isUnwrapped, Tag.hasLoop, hfor, hnone]) his
    next parts hparts =>
      have hunwrapped : tag.isUnwrapped branch = tag'.isGroup := by
        simp [Tag.isUnwrapped, Tag.hasLoop, hfor, hparts, hgroup]
      rw [Node.items]
      split
      next htemplate => exact h.keeps_children (hunwrapped.trans htemplate) his
      next htemplate =>
        rw [nodeItems_single]
        exact h.keeps_element hshed (hunwrapped.trans (Bool.eq_false_iff.2 htemplate)) his

/-- **A branch** keeps its element around the children unless the element is a group. -/
theorem branchChildren_items (h : before.Opens tag) (his : Keeps is (nodeItems children)) :
    Keeps (before.ownItems true ++ is) (nodeItems (branchChildren tag children).1) := by
  unfold branchChildren
  split
  next hgroup =>
    rw [Bool.and_eq_true, Option.isNone_iff_eq_none] at hgroup
    exact h.keeps_children (by simp [Tag.isUnwrapped, hgroup]) his
  next hgroup =>
    rw [nodeItems_single]
    by_cases hfor : (tag.directive? "for").isSome = true
    · exact liftLoop_items h true (.inl hfor) his
    · -- the element is no loop and no group
      have hnone : tag.directive? "for" = none := by simpa using hfor
      have hwrapped : tag.isUnwrapped true = tag.isUnwrapped false := by
        simpa [Tag.isUnwrapped, hnone] using hgroup
      rw [Tag.ownItems, ← h.isUnwrapped, hwrapped, h.isUnwrapped]
      exact liftLoop_items h false (.inr rfl) his

end

/-! ## 5. One sibling -/

/-- The second node is the first one with its children lifted, and keeps of them what stays. -/
inductive InsideKept : Node → Node → Prop
  | element (tag : Tag) {children lifted : List Node} (h : Keeps (staying (fates none children)) (nodeItems lifted)) :
    InsideKept (.element tag children) (.element tag lifted)
  | text (content : String) (span : Span) : InsideKept (.text content span) (.text content span)
  | comment (content : String) (span : Span) : InsideKept (.comment content span) (.comment content span)
  | interpolation (content : Expression) (span : Span) :
    InsideKept (.interpolation content span) (.interpolation content span)

namespace Lifting

/-- The items of the siblings lifted so far, without those in the gap. -/
def items (s : Lifting) : List Item := nodeItems s.done.reverse

/-- The items of the gap that stay, given what follows. -/
def held (s : Lifting) (rest : List Node) : List Item := if goesOn rest then [] else nodeItems s.gap.reverse

/-- There is a gap only behind a chain. -/
def Waits (s : Lifting) : Prop := s.gap ≠ [] → s.ending?.isSome = true

variable {s : Lifting} {is js : List Item}

theorem held_of_gap (h : s.gap = []) (rest : List Node) : s.held rest = [] := by
  simp [held, h, nodeItems]

/-- Without a chain in front, or without a later branch behind, the gap stays. -/
theorem held_eq (hwaits : s.Waits) {rest : List Node} (h : s.ending? = none ∨ goesOn rest = false) :
    s.held rest = nodeItems s.gap.reverse := by
  rcases h with h | h
  · have hgap : s.gap = [] := by
      by_contra hne
      simpa [h] using hwaits hne
    rw [held_of_gap hgap, hgap]
    rfl
  · simp [held, h]

/-- The items are those that the siblings lifted so far keep, the gap included. -/
structure Carries (s : Lifting) (is : List Item) (rest : List Node) : Prop where
  waits : s.Waits
  keeps : ∃ front, is = front ++ s.held rest ∧ Keeps front s.items

/-- Siblings without a gap carry what they keep. -/
theorem carries_of_gap (hgap : s.gap = []) (h : Keeps is s.items) (rest : List Node) : s.Carries is rest :=
  ⟨fun hne => absurd hgap hne, is, by rw [held_of_gap hgap, List.append_nil], h⟩

/-- A node that is added follows the gap. -/
theorem carries_add (hkeeps : Keeps is s.items) {node : Node} (hnode : Keeps js node.items) (faults : List Fault)
    (rest : List Node) : (s.add node faults).Carries (is ++ nodeItems s.gap.reverse ++ js) rest := by
  refine carries_of_gap rfl ?_ rest
  rw [items, add, List.reverse_cons, List.reverse_append, nodeItems_append, nodeItems_append, nodeItems_single]
  exact (hkeeps.append (.refl _)).append hnode

/-- An element that starts a chain or belongs to none. -/
theorem carries_addElement {before tag : Tag} {children : List Node} (hkeeps : Keeps is s.items)
    (h : before.Opens tag) (hjs : Keeps js (nodeItems children)) (rest : List Node) :
    (s.addElement tag children).Carries
      (is ++ nodeItems s.gap.reverse ++ (before.ownItems tag.ifBranch?.isSome ++ js)) rest := by
  unfold addElement
  split
  next d tag' htake =>
    have hif : tag.ifBranch?.isSome = true := by rw [Tag.ifBranch?, (Tag.take?_eq_some htake).1]; rfl
    refine carries_add hkeeps ?_ _ rest
    rw [hif, Node.items, branchItems, branchItems, List.append_nil]
    exact branchChildren_items (h.trans (.of_take? htake (by decide))) hjs
  next hnone =>
    have hif : tag.ifBranch?.isSome = false := by rw [Tag.ifBranch?, Tag.take?_eq_none hnone]; rfl
    refine carries_add hkeeps ?_ _ rest
    rw [hif]
    exact liftLoop_items h false (.inr rfl) hjs

/-- A later branch stands behind the branches in front, and what stood between them is gone. -/
theorem carries_extend {before tag : Tag} {children below : List Node} {branches : List Branch} {span : Span}
    (hkeeps : Keeps is s.items) (hdone : s.done = .chain branches span :: below) (h : before.Opens tag)
    (hjs : Keeps js (nodeItems children)) (condition : Option Expression) (place whole : Span) (faults : List Fault)
    (rest : List Node) :
    let branch := Branch.mk condition (branchChildren tag children).1 place
    ({ done := .chain (branches ++ [branch]) whole :: below, gap := [], faults := faults } : Lifting).Carries
      (is ++ (before.ownItems true ++ js)) rest := by
  refine carries_of_gap rfl ?_ rest
  have hitems : s.items = nodeItems below.reverse ++ branchItems branches := by
    rw [items, hdone, List.reverse_cons, nodeItems_append, nodeItems_single, Node.items]
  rw [items, List.reverse_cons, nodeItems_append, nodeItems_single, Node.items, branchItems_append, branchItems,
    branchItems, List.append_nil, ← List.append_assoc (nodeItems _), ← hitems]
  exact hkeeps.append (branchChildren_items h hjs)

/-- An element follows the gap, or goes on with the chain in front of it. -/
theorem addSibling_element {tag : Tag} {children : List Node} (hwaits : s.Waits) (hkeeps : Keeps is s.items)
    (hjs : Keeps js (nodeItems children)) (other rest : List Node) :
    (s.addSibling (.element tag children)).Carries
      (is ++ s.held (.element tag other :: rest) ++ (tag.ownItems (tag.isBranch s.ending?) ++ js)) rest := by
  unfold addSibling
  dsimp only
  split
  next hnone =>
    have helse := Tag.takeElse?_eq_none hnone
    rw [held_eq hwaits (.inr (by rw [goesOn, helse]; rfl)), Tag.isBranch, helse, Option.isSome_none, Bool.false_and,
      Bool.or_false]
    exact carries_addElement hkeeps (.refl tag) hjs rest
  next condition tag' htake =>
    obtain ⟨helse, hif⟩ := Tag.takeElse?_eq_some htake
    have hopens : tag.Opens tag' := .of_takeElse? htake
    split
    next branches span below hdone =>
      have hbranch : tag.isBranch s.ending? = true := by simp [Tag.isBranch, helse, ending?, hdone]
      have hheld : s.held (.element tag other :: rest) = [] := by simp [held, goesOn, helse]
      rw [hbranch, hheld, List.append_nil]
      exact carries_extend hkeeps hdone hopens hjs _ _ _ _ rest
    next hother =>
      have hending : s.ending? = none := by
        unfold ending?
        split
        next branches span below hdone => exact absurd hdone (hother branches span below)
        next => rfl
      rw [held_eq hwaits (.inl hending), Tag.isBranch, hending, Option.isSome_none, Bool.and_false, Bool.or_false,
        ← hif]
      exact carries_addElement hkeeps hopens hjs rest

/-- What is no element joins the gap or follows it. -/
theorem addSibling_other (node : Node) (hwaits : s.Waits) (hkeeps : Keeps is s.items) {rest : List Node}
    (hgoesOn : goesOn (node :: rest) = (node.isGap && goesOn rest))
    (hfates : node.fates s.ending? = node.items.map fun item => (item, .stays)) :
    (if node.isGap && s.endsInChain then { s with gap := node :: s.gap } else s.add node []).Carries
      (is ++ s.held (node :: rest) ++ staying (if node.isBetween s.ending? rest then
        node.items.map fun item => (item, .dropped) else node.fates s.ending?)) rest := by
  rw [endsInChain_eq, hfates]
  split
  next hgap =>
    obtain ⟨hblank, hending⟩ := Bool.and_eq_true .. ▸ hgap
    refine ⟨fun _ => hending, is, ?_, hkeeps⟩
    rw [List.append_assoc, held, held, hgoesOn, Node.isBetween, hblank, hending, Bool.true_and, Bool.true_and,
      Bool.true_and]
    cases goesOn rest with
    | true => simp
    | false => simp [nodeItems_append, nodeItems_single]
  next hgap =>
    have hbetween : node.isBetween s.ending? rest = false := by
      rw [Node.isBetween, Bool.eq_false_iff.2 hgap, Bool.false_and]
    have hheld : s.held (node :: rest) = nodeItems s.gap.reverse := by
      refine held_eq hwaits ?_
      rw [hgoesOn]
      cases hblank : node.isGap with
      | true => exact .inl (by simpa [hblank] using hgap)
      | false => exact .inr rfl
    rw [hbetween, hheld, if_neg Bool.false_ne_true, staying_stays]
    exact carries_add hkeeps (.refl _) [] rest

/-- **The next sibling**: what is kept of it is what stays of it, and the gap in front of it is kept unless it goes
on with a chain. -/
theorem addSibling_items (hwaits : s.Waits) (hkeeps : Keeps is s.items) {node lifted : Node}
    (h : InsideKept node lifted) (rest : List Node) :
    (s.addSibling lifted).Carries
      (is ++ s.held (node :: rest) ++ staying (if node.isBetween s.ending? rest then
        node.items.map fun item => (item, .dropped) else node.fates s.ending?)) rest := by
  cases h with
  | element tag h =>
    rw [if_neg (by simp [Node.isBetween, Node.isGap]), staying_element]
    exact addSibling_element hwaits hkeeps h _ rest
  | text content span => exact addSibling_other (.text content span) hwaits hkeeps rfl (by simp [Node.fates])
  | comment content span => exact addSibling_other (.comment content span) hwaits hkeeps rfl (by simp [Node.fates])
  | interpolation content span =>
    exact addSibling_other (.interpolation content span) hwaits hkeeps rfl (by simp [Node.fates])

end Lifting

/-! ## 6. Whole trees -/

mutual

theorem Node.liftInside_items : ∀ node : Node, node.Raw → InsideKept node node.liftInside.1
  | .element tag children, h => by
    have hchildren : ∀ child ∈ children, child.Raw := by
      cases h with
      | element _ _ h => exact h
    have hinside := liftFrom_items {} children [] Lifting.regular_empty (fun h => absurd rfl h) hchildren .nil
    rw [Lifting.held_of_gap rfl, List.nil_append, List.nil_append] at hinside
    exact .element tag hinside
  | .text _ _, _ => .text _ _
  | .comment _ _, _ => .comment _ _
  | .interpolation _ _, _ => .interpolation _ _
  | .chain _ _, h => by cases h
  | .loop _ _ _, h => by cases h

/-- **Siblings** keep what is kept so far, the gap unless they go on with the chain, and what stays of them. -/
theorem liftFrom_items : ∀ (s : Lifting) (nodes : List Node) (is : List Item), s.Regular → s.Waits →
    (∀ node ∈ nodes, node.Raw) → Keeps is s.items →
      Keeps (is ++ s.held nodes ++ staying (fates s.ending? nodes)) (nodeItems (liftFrom s nodes).nodes)
  | s, [], is, _, _, _, hkeeps => by
    rw [fates, staying_nil, List.append_nil, liftFrom, Lifting.nodes, List.reverse_append, nodeItems_append]
    exact hkeeps.append (.refl _)
  | s, node :: rest, is, hs, hwaits, h, hkeeps => by
    obtain ⟨hnode, hrest⟩ := List.forall_mem_cons.1 h
    have hsame : node.liftInside.1.after s.ending? = node.after s.ending? ∧
        ∀ branches span, node.liftInside.1 ≠ .chain branches span := by
      cases hnode <;> simp [Node.liftInside, Node.after, Node.isGap]
    obtain ⟨hafter, hplain⟩ := hsame
    let s' : Lifting := { s with faults := s.faults ++ node.liftInside.2 }
    obtain ⟨hregular, hending, -⟩ := Lifting.addSibling_chains (s := s') ⟨hs.gap, hs.ne_nil⟩ hplain
      (Node.liftInside_chains node hnode).1
    obtain ⟨hwaits', front, hfront, hkeeps'⟩ := Lifting.addSibling_items (s := s') hwaits hkeeps
      (Node.liftInside_items node hnode) rest
    have hwhole := liftFrom_items _ rest front hregular hwaits' hrest hkeeps'
    rw [← hfront, hending, show s'.ending? = s.ending? from rfl, hafter] at hwhole
    rw [liftFrom, fates, staying_append, ← List.append_assoc]
    exact hwhole

end

/-- Items of a kind that always stays are as many, and in the order, as before. -/
theorem staying_filter {told : List (Item × Fate)} {p : Item → Bool}
    (h : ∀ x ∈ told, p x.1 = true → x.2 = .stays) : (staying told).filter p = (told.map (·.1)).filter p := by
  rw [staying, List.filter_map, List.filter_map, List.filter_filter]
  congr 1
  refine List.filter_congr fun x hx => ?_
  by_cases hp : p x.1 = true
  · simp [hp, h x hx hp]
  · simp [hp]

/-- Interpolations and text that is not blank always stay. -/
theorem Fate.Befalls.eq_stays {fate : Fate} {item : Item} (h : fate.Befalls item)
    (hitem : item.isInterpolation = true ∨ item.isSolidText = true) : fate = .stays := by
  cases fate with
  | stays => rfl
  | unwrapped =>
    cases item with
    | element => simp [Item.isInterpolation, Item.isSolidText] at hitem
    | text => exact h.elim
    | comment => exact h.elim
    | interpolation => exact h.elim
  | dropped =>
    cases item with
    | element => exact h.elim
    | text content span =>
      obtain ⟨c, hc, hsolid⟩ : ∃ c ∈ content.toList, isBlank c = false := by
        simpa [Item.isInterpolation, Item.isSolidText] using hitem
      rw [h c hc] at hsolid
      cases hsolid
    | comment => simp [Item.isInterpolation, Item.isSolidText] at hitem
    | interpolation => exact h.elim

/-- **Lifting loses nothing.**  Every item of the tree that is read has a fate.  Those that stay are the items of
the lifted tree, in order, with elements at most without some of the directives that are lifted; elements are
unwrapped only if they are groups with such a directive, and what is dropped is comments and blank text between two
branches of one chain.  In particular, all interpolations and all text that is not blank stay. -/
theorem parse_items (source : String) :
    let before := (build source.toList).1
    let after := (parse source).nodes
    let told := fates none before
    told.map (·.1) = nodeItems before ∧
    (∀ x ∈ told, x.2.Befalls x.1) ∧
    Keeps (staying told) (nodeItems after) ∧
    (nodeItems after).filter (·.isInterpolation) = (nodeItems before).filter (·.isInterpolation) ∧
    (nodeItems after).filter (·.isSolidText) = (nodeItems before).filter (·.isSolidText) ∧
    List.Forall₂ Tag.Sheds ((staying told).filterMap (·.tag?)) ((nodeItems after).filterMap (·.tag?)) := by
  intro before after told
  have hbefore : told.map (·.1) = nodeItems before := fates_fst none before
  have hbefall := fates_befall none before
  have hkeeps : Keeps (staying told) (nodeItems after) := by
    have hwhole := liftFrom_items {} before [] Lifting.regular_empty (fun h => absurd rfl h)
      (build_raw source.toList) .nil
    rwa [Lifting.held_of_gap rfl, List.nil_append, List.nil_append] at hwhole
  refine ⟨hbefore, hbefall, hkeeps, ?_, ?_, hkeeps.tags⟩
  · rw [hkeeps.filter_eq fun _ => rfl, staying_filter, hbefore]
    exact fun x hx hitem => (hbefall x hx).eq_stays (.inl hitem)
  · rw [hkeeps.filter_eq fun _ => rfl, staying_filter, hbefore]
    exact fun x hx hitem => (hbefall x hx).eq_stays (.inr hitem)

/-- The blank text between two branches is dropped, the one behind the last branch stays. -/
example : (fates none (build "<template v-if=\"a\">b</template> <p v-else/> ".toList).1).map (·.2) =
    [.unwrapped, .stays, .dropped, .stays, .stays] := by
  decide +kernel

end ComponentLens.Markup
