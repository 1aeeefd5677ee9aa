/-
# What is said to the backend

Some laws are about what a request asks the backend, or about the answers that it got and no others.  To state
them, the request is run with a backend that writes down every question with its answer (`Backend.recorded`).
The token is not written down, since asking for it asks nothing of the code.

Writing down changes nothing.  No single theorem says so for every program, so it is proved function by function,
and each proof carries along what the function gives: `Records` holds of an action and of the same action over
the recording backend.  Here it is shown of walks, which find nothing but places that the backend answered with.
-/
import ComponentLens.Service.Rename

namespace ComponentLens.Service

variable {σ α β : Type}

/-! ## 1. Exchanges -/

/-- A question to the backend, with its answer. -/
inductive Exchange where
  | find (lookup : Lookup) (uri : Uri) (offset : Nat) (reply : Reply (List Place))
  | rename (uri : Uri) (offset : Nat) (name : String) (reply : Reply Changes)
  | diagnostics (uri : Uri) (kinds : DiagnosticKinds) (reply : Reply (List BackendDiagnostic))
  | completionDetails (uri : Uri) (offset : Nat) (entry : CompletionEntry)
      (reply : Reply (Option CompletionDetails))
  | text (uri : Uri) (text : Option String)

/-- The places that are edited. -/
def editedPlaces (reply : Reply Changes) : List Place :=
  orNothing (reply.map fun changes => changes.placed.map (·.place))

/-- The places that a look-up or a rename is answered with. -/
def Exchange.places : Exchange → List Place
  | .find _ _ _ reply => orNothing reply
  | .rename _ _ _ reply => editedPlaces reply
  | .diagnostics .. | .completionDetails .. | .text .. => []

/-- The places that the backend answered with. -/
def answeredPlaces (exchanges : List Exchange) : List Place := exchanges.flatMap (·.places)

/-- A state, and what was said on the way to it, the first exchange first. -/
structure Recorded (σ : Type) where
  state : σ
  exchanges : List Exchange

/-- A state in which nothing has been said yet. -/
def Recorded.start (s : σ) : Recorded σ := ⟨s, []⟩

/-- The action, with an exchange written down. -/
def record (exchange : α → Exchange) (m : StateM σ α) : StateM (Recorded σ) α := fun t =>
  let (a, s) := m t.state
  (a, ⟨s, t.exchanges ++ [exchange a]⟩)

/-- The action, with nothing written down. -/
def offRecord (m : StateM σ α) : StateM (Recorded σ) α := fun t =>
  let (a, s) := m t.state
  (a, ⟨s, t.exchanges⟩)

/-- The backend, with every exchange written down. -/
def Backend.recorded (backend : Backend σ) : Backend (Recorded σ) where
  isCancelled := offRecord backend.isCancelled
  find lookup uri offset := record (.find lookup uri offset) (backend.find lookup uri offset)
  rename uri offset name := record (.rename uri offset name) (backend.rename uri offset name)
  diagnostics uri kinds := record (.diagnostics uri kinds) (backend.diagnostics uri kinds)
  completionDetails uri offset entry :=
    record (.completionDetails uri offset entry) (backend.completionDetails uri offset entry)
  text? uri := record (.text uri) (backend.text? uri)

/-- The tools, with every exchange with the backend written down. -/
def Tools.recorded (tools : Tools σ) : Tools (Recorded σ) :=
  ⟨tools.backend.recorded, tools.style, tools.markup⟩

/-! ## 2. Recording -/

/-- The second action does what the first does, and what has been written down stays so.  As long as nothing is
said beyond `all`, what it gives satisfies `P`. -/
structure Records (all : List Exchange) (m : StateM σ α) (m' : StateM (Recorded σ) α) (P : α → Prop) :
    Prop where
  mirrors : ∀ t, m t.state = ((m' t).1, (m' t).2.state)
  grows : ∀ t, t.exchanges ⊆ (m' t).2.exchanges
  gives : ∀ t, (m' t).2.exchanges ⊆ all → P (m' t).1

section
variable {all : List Exchange} {P : α → Prop} {Q : β → Prop}

theorem Records.pure {a : α} (h : P a) : Records (σ := σ) all (Pure.pure a) (Pure.pure a) P where
  mirrors _ := rfl
  grows _ := List.Subset.refl _
  gives _ _ := h

theorem Records.bind {m : StateM σ α} {m' : StateM (Recorded σ) α} {f : α → StateM σ β}
    {f' : α → StateM (Recorded σ) β} (hm : Records all m m' P)
    (hf : ∀ a, Records all (f a) (f' a) fun b => P a → Q b) : Records all (m >>= f) (m' >>= f') Q where
  mirrors t := by
    have hrun : (m >>= f) t.state = f (m t.state).1 (m t.state).2 := rfl
    rw [hrun, hm.mirrors t]
    exact (hf _).mirrors _
  grows t := List.Subset.trans (hm.grows t) ((hf _).grows _)
  gives t h := (hf _).gives _ h (hm.gives t (List.Subset.trans ((hf _).grows _) h))

theorem Records.mono {m : StateM σ α} {m' : StateM (Recorded σ) α} {weaker : α → Prop}
    (h : Records all m m' P) (hweaker : ∀ a, P a → weaker a) : Records all m m' weaker where
  mirrors := h.mirrors
  grows := h.grows
  gives t ht := hweaker _ (h.gives t ht)

/-- What is written down of an action. -/
theorem Records.record (exchange : α → Exchange) (m : StateM σ α) :
    Records all m (record exchange m) fun a => exchange a ∈ all where
  mirrors _ := rfl
  grows _ := List.subset_append_left _ _
  gives _ h := h (List.mem_append_right _ List.mem_cons_self)

theorem Records.offRecord (m : StateM σ α) : Records all m (offRecord m) fun _ => True where
  mirrors _ := rfl
  grows _ := List.Subset.refl _
  gives _ _ := trivial

/-- What is given for elements that satisfy `R`. -/
theorem Records.gather {f : α → StateM σ (List β)} {f' : α → StateM (Recorded σ) (List β)} {R : α → Prop}
    (h : ∀ a, Records all (f a) (f' a) fun bs => R a → ∀ b ∈ bs, Q b) (as : List α) :
    Records all (gather f as) (gather f' as) fun bs => (∀ a ∈ as, R a) → ∀ b ∈ bs, Q b := by
  induction as with
  | nil => exact .pure fun _ b hb => by cases hb
  | cons a rest ih =>
    refine (h a).bind fun bs => ih.bind fun more => .pure fun hmore hbs has b hb => ?_
    rcases List.mem_append.1 hb with hb | hb
    · exact hbs (has a List.mem_cons_self) b hb
    · exact hmore (fun a ha => has a (List.mem_cons_of_mem _ ha)) b hb

/-- What an action gives, if all that it says is asked for. -/
theorem Records.result {m : StateM σ α} {m' : StateM (Recorded σ) α} (s : σ)
    (h : Records (m' (.start s)).2.exchanges m m' P) : P (m s).1 := by
  rw [show m s = _ from h.mirrors (.start s)]
  exact h.gives _ (List.Subset.refl _)

end

/-! ## 3. Walks -/

/-- A walk finds only what it is answered with. -/
theorem Walk.found_foldl_take {ends : Place → List LinkEnd} {q : Question} {answers : List (Place × α)}
    {w : Walk α} : ∀ a ∈ (answers.foldl (Walk.take ends q) w).found, a ∈ w.found ∨ a ∈ answers := by
  induction answers generalizing w with
  | nil => exact fun a ha => .inl ha
  | cons answer answers ih =>
    intro a ha
    rcases ih a ha with ha | ha
    · unfold Walk.take at ha
      dsimp only at ha
      split at ha
      · exact .inl ha
      · exact (List.mem_append.1 ha).imp_right fun h => List.mem_cons.2 (.inl (List.mem_singleton.1 h))
    · exact .inr (List.mem_cons_of_mem _ ha)

section
variable {all : List Exchange} {F : Place × α → Prop} {isCancelled : StateM σ Bool}
  {isCancelled' : StateM (Recorded σ) Bool} {ask : Question → StateM σ (Reply (List (Place × α)))}
  {ask' : Question → StateM (Recorded σ) (Reply (List (Place × α)))}
  (hcheck : Records all isCancelled isCancelled' fun _ => True)
  (hask : ∀ q, Records all (ask q) (ask' q) fun reply => ∀ a ∈ orNothing reply, F a)
include hcheck hask

/-- **A walk**, if all answers satisfy `F`. -/
theorem Records.run (ends : Place → List LinkEnd) (fuel : Nat) (w : Walk α) :
    Records all (w.run isCancelled ask ends fuel) (w.run isCancelled' ask' ends fuel) fun o =>
      (∀ a ∈ w.found, F a) → ∀ walk ∈ o, ∀ a ∈ walk.found, F a := by
  induction fuel generalizing w with
  | zero =>
    unfold Walk.run
    cases w.open_ with
    | nil => exact .pure fun h walk hwalk => by cases hwalk; exact h
    | cons q rest => exact .pure fun h walk hwalk => by cases hwalk
  | succ fuel ih =>
    unfold Walk.run
    cases w.open_ with
    | nil => exact .pure fun h walk hwalk => by cases hwalk; exact h
    | cons q rest =>
      refine hcheck.bind fun cancelled => ?_
      cases cancelled with
      | true => exact .pure fun _ h walk hwalk => by cases hwalk
      | false =>
        refine (hask q).bind fun reply => ?_
        cases reply with
        | ok answers =>
          refine (ih _).mono fun o ho hanswers _ h => ho fun a ha => ?_
          exact (Walk.found_foldl_take a ha).elim (h a) (hanswers a)
        | error e =>
          cases e with
          | cancelled => exact .pure fun _ _ h walk hwalk => by cases hwalk
          | unknownDocument uri => exact (ih _).mono fun o ho _ _ h => ho h
          | failed message => exact (ih _).mono fun o ho _ _ h => ho h

/-- **Walks from several starts.** -/
theorem Records.follow (builds : BuildCache) (wanted : LinkCapabilities) (seen : List Place)
    (starts : List Start) :
    Records all (follow isCancelled ask builds wanted seen starts)
      (Service.follow isCancelled' ask' builds wanted seen starts) fun o =>
        ∀ found ∈ o, ∀ a ∈ found, F a := by
  induction starts generalizing seen with
  | nil => exact .pure fun found hfound a ha => by cases hfound; cases ha
  | cons start rest ih =>
    unfold Service.follow
    refine (Records.run hcheck hask _ _ _).bind fun walk => ?_
    cases walk with
    | none => exact .pure fun _ found hfound => by cases hfound
    | some walk =>
      refine (ih walk.seen).bind fun later => .pure fun hlater hwalk found hfound a ha => ?_
      obtain ⟨found, rfl, rfl⟩ := Option.map_eq_some_iff.1 hfound
      rcases List.mem_append.1 ha with ha | ha
      · exact hwalk (fun a ha => by cases ha) walk rfl a ha
      · exact hlater found rfl a ha

end

/-! ## 4. Questions -/

section
variable {all : List Exchange} {backend : Backend σ}

theorem mem_answeredPlaces {e : Exchange} {p : Place} (he : e ∈ all) (hp : p ∈ e.places) :
    p ∈ answeredPlaces all :=
  List.mem_flatMap.2 ⟨e, he, hp⟩

theorem records_askPlaces (lookup : Lookup) (q : Question) :
    Records all (askPlaces backend lookup q) (askPlaces backend.recorded lookup q) fun reply =>
      ∀ a ∈ orNothing reply, a.1 ∈ answeredPlaces all := by
  refine (Records.record (.find lookup q.uri q.offset) _).bind fun reply => .pure fun hreply a ha => ?_
  cases reply with
  | ok places =>
    obtain ⟨p, hp, rfl⟩ := List.mem_map.1 ha
    exact mem_answeredPlaces hreply hp
  | error e => cases ha

theorem records_askEdits (q : Question) :
    Records all (askEdits backend q) (askEdits backend.recorded q) fun reply =>
      ∀ a ∈ orNothing reply, a.1 ∈ answeredPlaces all := by
  refine (Records.record (.rename q.uri q.offset q.name) _).bind fun reply => .pure fun hreply a ha => ?_
  cases reply with
  | ok changes =>
    obtain ⟨e, he, rfl⟩ := List.mem_map.1 ha
    exact mem_answeredPlaces hreply (List.mem_map_of_mem he)
  | error e => cases ha

/-- What walks for a look-up find was answered by the backend. -/
theorem records_followPlaces (lookup : Lookup) (builds : BuildCache) (starts : List Start) :
    Records all (follow backend.isCancelled (askPlaces backend lookup) builds lookup.linkCapability [] starts)
      (follow backend.recorded.isCancelled (askPlaces backend.recorded lookup) builds lookup.linkCapability []
        starts) fun o => ∀ found ∈ o, ∀ a ∈ found, a.1 ∈ answeredPlaces all :=
  Records.follow (.offRecord _) (records_askPlaces lookup) builds _ [] starts

/-- What walks for a rename find was answered by the backend. -/
theorem records_followEdits (builds : BuildCache) (starts : List Start) :
    Records all (follow backend.isCancelled (askEdits backend) builds .rename [] starts)
      (follow backend.recorded.isCancelled (askEdits backend.recorded) builds .rename [] starts) fun o =>
        ∀ found ∈ o, ∀ a ∈ found, a.1 ∈ answeredPlaces all :=
  Records.follow (.offRecord _) records_askEdits builds _ [] starts

end

end ComponentLens.Service
