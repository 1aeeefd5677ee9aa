/-
# Cancelled requests

A request learns in two ways that it is cancelled: it asks for the token between questions, and the backend may
answer a question by saying so.  Requests for locations and renames have a half that asks the backend about the
code, and behind it a half that asks the other services (`locationsBehind`, `editsBehind`).

`requests_cancelled` says what a cancellation in the first half leads to.  If the token is raised at any moment
of it, the request gives nothing.  If the backend answers that the request is cancelled, the first half gives
nothing; but the second half asks for the token alone, so as long as that is down the request goes on with the
other services and gives what they find.  `references_refused` is a request that does.

To speak of the moments of the first half, it is run with a backend that keeps them (`Backend.watched`).
Watching changes nothing, and both facts are carried through the run together (`Watches`).
-/
import ComponentLens.Proofs.Service.Freshness
import ComponentLens.Service.Rename

namespace ComponentLens.Service

variable {σ α β : Type}

/-! ## 1. Moments -/

/-- What is left behind by an action of the backend: the state, and whether the action answered that the
request is cancelled. -/
structure Moment (σ : Type) where
  state : σ
  refused : Bool

/-- A state and the moments on the way to it. -/
structure Watched (σ : Type) where
  state : σ
  moments : List (Moment σ)

/-- A state that nothing has happened in yet. -/
def Watched.start (s : σ) : Watched σ := ⟨s, [⟨s, false⟩]⟩

/-- Whether the answer is that the request is cancelled. -/
def isRefusal : Reply α → Bool
  | .error .cancelled => true
  | _ => false

theorem isRefusal_map (f : α → β) (reply : Reply α) : isRefusal (reply.map f) = isRefusal reply := by
  cases reply with
  | ok answers => rfl
  | error e => cases e <;> rfl

/-- The action, and a moment behind it. -/
def watch (refuses : α → Bool) (m : StateM σ α) : StateM (Watched σ) α := fun t =>
  let (a, s) := m t.state
  (a, ⟨s, t.moments ++ [⟨s, refuses a⟩]⟩)

/-- The backend, with a moment behind each of its actions. -/
def Backend.watched (backend : Backend σ) : Backend (Watched σ) where
  isCancelled := watch (fun _ => false) backend.isCancelled
  find lookup uri offset := watch isRefusal (backend.find lookup uri offset)
  rename uri offset name := watch isRefusal (backend.rename uri offset name)
  diagnostics uri kinds := watch isRefusal (backend.diagnostics uri kinds)
  completionDetails uri offset entry := watch isRefusal (backend.completionDetails uri offset entry)
  text? uri := watch (fun _ => false) (backend.text? uri)

/-- A token that is shared with the backend: who asks for it is told when it is raised, and once raised it
stays so. -/
structure Latch (backend : Backend σ) (raised : σ → Prop) : Prop where
  told : ∀ s, raised s → (backend.isCancelled s).1 = true
  isCancelled : ∀ s, raised s → raised (backend.isCancelled s).2
  find : ∀ lookup uri offset s, raised s → raised (backend.find lookup uri offset s).2
  rename : ∀ uri offset name s, raised s → raised (backend.rename uri offset name s).2
  text? : ∀ uri s, raised s → raised (backend.text? uri s).2

/-! ## 2. Watching -/

/-- Who has seen the token raised finds it raised. -/
def Watched.Settled (raised : σ → Prop) (t : Watched σ) : Prop :=
  ∀ m ∈ t.moments, raised m.state → raised t.state

/-- No question has been answered by saying that the request is cancelled. -/
def Watched.Unrefused (t : Watched σ) : Prop := ∀ m ∈ t.moments, m.refused = false

/-- The second action does what the first does and keeps the moments. What it gives is `given` if a question is
answered by saying that the request is cancelled. -/
structure Watches (raised : σ → Prop) (given : α → Prop) (m : StateM σ α) (m' : StateM (Watched σ) α) :
    Prop where
  mirrors : ∀ t, m t.state = ((m' t).1, (m' t).2.state)
  settled : ∀ t, t.Settled raised → (m' t).2.Settled raised
  unrefused : ∀ t, t.Unrefused → (m' t).2.Unrefused ∨ given (m' t).1

section
variable {raised : σ → Prop} {given : α → Prop} {given' : β → Prop}

theorem Watches.pure (a : α) : Watches raised given (Pure.pure a) (Pure.pure a) where
  mirrors _ := rfl
  settled _ h := h
  unrefused _ h := .inl h

theorem Watches.bind {m : StateM σ α} {m' : StateM (Watched σ) α} {f : α → StateM σ β}
    {f' : α → StateM (Watched σ) β} (hm : Watches raised given m m')
    (hf : ∀ a, Watches raised given' (f a) (f' a)) (hgiven : ∀ a, given a → ∀ t, given' (f' a t).1) :
    Watches raised given' (m >>= f) (m' >>= f') where
  mirrors t := by
    have hrun : (m >>= f) t.state = f (m t.state).1 (m t.state).2 := rfl
    rw [hrun, hm.mirrors t]
    exact (hf _).mirrors _
  settled t h := (hf _).settled _ (hm.settled t h)
  unrefused t h := by
    rcases hm.unrefused t h with h | h
    · exact (hf _).unrefused _ h
    · exact .inr (hgiven _ h _)

theorem Watches.mono {m : StateM σ α} {m' : StateM (Watched σ) α} {weaker : α → Prop}
    (h : Watches raised given m m') (hweaker : ∀ a, given a → weaker a) : Watches raised weaker m m' where
  mirrors := h.mirrors
  settled := h.settled
  unrefused t ht := (h.unrefused t ht).imp_right (hweaker _)

/-- One action of the backend. -/
theorem Watches.watch {m : StateM σ α} (refuses : α → Bool) (hm : ∀ s, raised s → raised (m s).2) :
    Watches raised (fun a => refuses a = true) m (watch refuses m) where
  mirrors _ := rfl
  settled t h moment hmoment hraised := by
    rcases List.mem_append.1 hmoment with hmoment | hmoment
    · exact hm _ (h moment hmoment hraised)
    · rw [List.mem_singleton.1 hmoment] at hraised
      exact hraised
  unrefused t h := by
    cases hrefuses : refuses (m t.state).1 with
    | true => exact .inr hrefuses
    | false =>
      refine .inl fun moment hmoment => ?_
      rcases List.mem_append.1 hmoment with hmoment | hmoment
      · exact h moment hmoment
      · rw [List.mem_singleton.1 hmoment]
        exact hrefuses

end

/-! ## 3. The walks -/

section
variable {raised : σ → Prop} {isCancelled : StateM σ Bool} {isCancelled' : StateM (Watched σ) Bool}
  {ask : Question → StateM σ (Reply (List (Place × α)))}
  {ask' : Question → StateM (Watched σ) (Reply (List (Place × α)))}
  (hcheck : Watches raised (fun _ => False) isCancelled isCancelled')
  (hask : ∀ q, Watches raised (fun reply => isRefusal reply = true) (ask q) (ask' q))
include hcheck hask

/-- A walk ends at the first answer that the request is cancelled. -/
theorem Watches.run (ends : Place → List LinkEnd) (fuel : Nat) (w : Walk α) :
    Watches raised (· = none) (w.run isCancelled ask ends fuel) (w.run isCancelled' ask' ends fuel) := by
  induction fuel generalizing w with
  | zero =>
    unfold Walk.run
    cases w.open_ with
    | nil => exact .pure _
    | cons q rest => exact .pure _
  | succ fuel ih =>
    unfold Walk.run
    cases w.open_ with
    | nil => exact .pure _
    | cons q rest =>
      refine hcheck.bind (fun cancelled => ?_) fun _ h => h.elim
      cases cancelled with
      | true => exact .pure _
      | false =>
        refine (hask q).bind (fun reply => ?_) fun reply hreply t => ?_
        · cases reply with
          | ok answers => exact ih _
          | error e =>
            cases e with
            | cancelled => exact .pure _
            | unknownDocument uri => exact ih _
            | failed message => exact ih _
        · cases reply with
          | ok answers => cases hreply
          | error e =>
            cases e with
            | cancelled => rfl
            | unknownDocument uri => cases hreply
            | failed message => cases hreply

/-- Walks from several starts give nothing at all if one of them gives nothing. -/
theorem Watches.follow (builds : BuildCache) (wanted : LinkCapabilities) (seen : List Place)
    (starts : List Start) :
    Watches raised (· = none) (follow isCancelled ask builds wanted seen starts)
      (Service.follow isCancelled' ask' builds wanted seen starts) := by
  induction starts generalizing seen with
  | nil => exact .pure _
  | cons start rest ih =>
    unfold Service.follow
    refine (Watches.run hcheck hask _ _ _).bind (fun walk => ?_) fun walk hwalk t => ?_
    · cases walk with
      | none => exact .pure _
      | some walk =>
        refine (ih walk.seen).bind (fun later => .pure _) fun later hlater t => ?_
        rw [hlater]
        rfl
    · rw [hwalk]
      rfl

end

/-! ## 4. The first half -/

/-- The edits of a rename that the code gives, in a file that has a build. -/
def renamed (backend : Backend σ) (w : Workspace) (uri : Uri) (pos : Position) (newName : String) :
    StateM σ (List PlacedEdit) :=
  match w.build? uri, w.files.offsetAt? uri pos with
  | some b, some offset => codeEdits backend w.builds b offset newName
  | _, _ => pure []

section
variable {backend : Backend σ} {raised : σ → Prop} (hlatch : Latch backend raised)
include hlatch

theorem Latch.watches_isCancelled :
    Watches raised (fun _ => False) backend.isCancelled backend.watched.isCancelled :=
  (Watches.watch (fun _ => false) hlatch.isCancelled).mono fun _ h => Bool.noConfusion h

theorem Latch.watches_askPlaces (lookup : Lookup) (q : Question) :
    Watches raised (fun reply => isRefusal reply = true) (askPlaces backend lookup q)
      (askPlaces backend.watched lookup q) := by
  refine (Watches.watch isRefusal (hlatch.find lookup q.uri q.offset)).bind (fun reply => .pure _)
    fun reply hreply t => ?_
  exact (isRefusal_map _ reply).trans hreply

theorem Latch.watches_askEdits (q : Question) :
    Watches raised (fun reply => isRefusal reply = true) (askEdits backend q)
      (askEdits backend.watched q) := by
  refine (Watches.watch isRefusal (hlatch.rename q.uri q.offset q.name)).bind (fun reply => .pure _)
    fun reply hreply t => ?_
  exact (isRefusal_map _ reply).trans hreply

theorem Latch.watches_mappedPlaces (builds : BuildCache) (lookup : Lookup) (starts : List Start) :
    Watches raised (· = []) (mappedPlaces backend builds lookup starts)
      (mappedPlaces backend.watched builds lookup starts) := by
  refine (Watches.follow hlatch.watches_isCancelled (hlatch.watches_askPlaces lookup) _ _ _ _).bind
    (fun found => .pure _) fun found hfound t => ?_
  rw [hfound]
  rfl

theorem Latch.watches_offsetAt? (w : Workspace) (uri : Uri) (pos : Position) :
    Watches raised (fun _ => False) (offsetAt? backend w uri pos) (offsetAt? backend.watched w uri pos) := by
  unfold offsetAt?
  split
  · exact .pure _
  · refine (Watches.watch (fun _ => false) (hlatch.text? uri)).bind (fun text => .pure _) fun _ h => ?_
    exact Bool.noConfusion h

/-- **The first half of a look-up.** -/
theorem Latch.watches_codePlaces (w : Workspace) (lookup : Lookup) (uri : Uri) (pos : Position) :
    Watches raised (· = []) (codePlaces backend w lookup uri pos)
      (codePlaces backend.watched w lookup uri pos) := by
  unfold codePlaces
  split
  · split
    · exact hlatch.watches_mappedPlaces _ _ _
    · exact .pure _
  · refine (hlatch.watches_offsetAt? w uri pos).bind (fun offset => ?_) fun _ h => h.elim
    cases offset with
    | none => exact .pure _
    | some offset =>
      refine (hlatch.watches_mappedPlaces _ _ _).bind (fun places => .pure _) fun places hplaces t => ?_
      rw [hplaces]
      rfl

theorem Latch.watches_codeEdits (builds : BuildCache) (b : Virtual.Build) (offset : Nat)
    (newName : String) :
    Watches raised (· = []) (codeEdits backend builds b offset newName)
      (codeEdits backend.watched builds b offset newName) := by
  refine (Watches.follow hlatch.watches_isCancelled hlatch.watches_askEdits _ _ _ _).bind
    (fun found => .pure _) fun found hfound t => ?_
  rw [hfound]
  rfl

/-- **The first half of a rename.** -/
theorem Latch.watches_renamed (w : Workspace) (uri : Uri) (pos : Position) (newName : String) :
    Watches raised (· = []) (renamed backend w uri pos newName)
      (renamed backend.watched w uri pos newName) := by
  unfold renamed
  split
  · exact hlatch.watches_codeEdits _ _ _ _
  · exact .pure _

end

section
variable {raised : σ → Prop} {half : StateM σ (List α)} {half' : StateM (Watched σ) (List α)}
  (h : Watches raised (· = []) half half')
include h

/-- The token is raised behind the first half if it is at a moment of it. -/
theorem Watches.raised_of_moment {s : σ} (hmoment : ∃ m ∈ (half' (.start s)).2.moments, raised m.state) :
    raised (half s).2 := by
  have hstart : (Watched.start s).Settled raised := by
    intro m hm hraised
    rw [List.mem_singleton.1 hm] at hraised
    exact hraised
  obtain ⟨m, hm, hraised⟩ := hmoment
  have hend := h.settled _ hstart m hm hraised
  rw [show half s = _ from h.mirrors (.start s)]
  exact hend

/-- The first half gives nothing if one of its questions is answered by saying that the request is cancelled. -/
theorem Watches.eq_nil_of_moment {s : σ} (hmoment : ∃ m ∈ (half' (.start s)).2.moments, m.refused = true) :
    (half s).1 = [] := by
  have hstart : (Watched.start s).Unrefused := by
    intro m hm
    rw [List.mem_singleton.1 hm]
  obtain ⟨m, hm, hrefused⟩ := hmoment
  rw [show half s = _ from h.mirrors (.start s)]
  rcases h.unrefused _ hstart with hnone | hgiven
  · rw [hnone m hm] at hrefused
    cases hrefused
  · exact hgiven

end

/-! ## 5. The second half -/

/-- Behind the places that the code gives: the token is asked for, and the places are located. -/
def locationsBehind (tools : Tools σ) (w : Workspace) (places : List MappedPlace) :
    StateM σ (List Location) := do
  if ← tools.backend.isCancelled then return []
  locations tools.backend w places

/-- Behind the edits that the code gives: the token is asked for, and where there is no edit, the other services
are asked. -/
def editsBehind (tools : Tools σ) (w : Workspace) (uri : Uri) (pos : Position) (newName : String)
    (edits : List PlacedEdit) : StateM σ (Option (List (Uri × List RangeEdit))) :=
  match w.build? uri, w.files.offsetAt? uri pos with
  | some b, some offset => do
    if ← tools.backend.isCancelled then return none
    let edits := firstNonempty
      [edits, markupEdits tools.markup b offset newName, styleEdits tools.style b offset newName]
    if edits.isEmpty then return none
    return some (← editsByFile tools.backend w edits)
  | _, _ => pure none

/-- The places that a look-up finds in stylesheets. -/
def stylePlaces (style : Option StyleService) (w : Workspace) (lookup : Lookup) (uri : Uri)
    (pos : Position) : List MappedPlace :=
  match lookup with
  | .references => withStyles style w uri pos styleReferences
  | .definition => withStyles style w uri pos (styleDefinition w.builds)
  | .typeDefinition => []

/-- The request that makes a look-up. -/
def lookupRequest (tools : Tools σ) (w : Workspace) (lookup : Lookup) (uri : Uri) (pos : Position) :
    StateM σ (List Location × Workspace) :=
  match lookup with
  | .references => references tools w uri pos
  | .definition => definitions tools w uri pos
  | .typeDefinition => typeDefinitions tools w uri pos

/-- A look-up is its first half and what comes behind it. -/
theorem lookupRequest_eq (tools : Tools σ) (w : Workspace) (lookup : Lookup) (uri : Uri) (pos : Position)
    (s : σ) :
    (lookupRequest tools w lookup uri pos s).1.1 =
      (locationsBehind tools (w.refresh uri)
        ((codePlaces tools.backend (w.refresh uri) lookup uri pos s).1 ++
          stylePlaces tools.style (w.refresh uri) lookup uri pos)
        (codePlaces tools.backend (w.refresh uri) lookup uri pos s).2).1 := by
  cases lookup <;> rfl

/-- A rename is its first half and what comes behind it. -/
theorem rename_eq (tools : Tools σ) (w : Workspace) (uri : Uri) (pos : Position) (newName : String) (s : σ) :
    (rename tools w uri pos newName s).1.1 =
      (editsBehind tools (w.refresh uri) uri pos newName
        (renamed tools.backend (w.refresh uri) uri pos newName s).1
        (renamed tools.backend (w.refresh uri) uri pos newName s).2).1 := by
  unfold rename renameEdits editsBehind renamed
  dsimp only
  cases (w.refresh uri).build? uri with
  | none => rfl
  | some b =>
    cases (w.refresh uri).files.offsetAt? uri pos with
    | none => rfl
    | some offset =>
      simp only [bind, StateT.bind, pure]
      obtain ⟨edits, s⟩ := codeEdits tools.backend (w.refresh uri).builds b offset newName s
      dsimp only
      obtain ⟨cancelled, s⟩ := tools.backend.isCancelled s
      cases cancelled with
      | true => rfl
      | false =>
        dsimp only
        generalize firstNonempty _ = found
        cases found <;> rfl

theorem locationsBehind_of_raised {tools : Tools σ} {raised : σ → Prop} (hlatch : Latch tools.backend raised)
    (w : Workspace) (places : List MappedPlace) {s : σ} (h : raised s) :
    (locationsBehind tools w places s).1 = [] := by
  have hrun : locationsBehind tools w places s =
      (if (tools.backend.isCancelled s).1 then pure [] else locations tools.backend w places : StateM σ _)
        (tools.backend.isCancelled s).2 := rfl
  rw [hrun, if_pos (hlatch.told s h)]
  rfl

theorem editsBehind_of_raised {tools : Tools σ} {raised : σ → Prop} (hlatch : Latch tools.backend raised)
    (w : Workspace) (uri : Uri) (pos : Position) (newName : String) (edits : List PlacedEdit) {s : σ}
    (h : raised s) : (editsBehind tools w uri pos newName edits s).1 = none := by
  have htold := hlatch.told s h
  unfold editsBehind
  cases w.build? uri with
  | none => rfl
  | some b =>
    cases w.files.offsetAt? uri pos with
    | none => rfl
    | some offset =>
      simp only [bind, StateT.bind]
      rcases hread : tools.backend.isCancelled s with ⟨cancelled, s'⟩
      rw [hread] at htold
      obtain rfl : cancelled = true := htold
      rfl

/-! ## 6. Cancelled requests -/

/-- The moments of the first half of a look-up that starts in state `s`. -/
def lookupMoments (backend : Backend σ) (w : Workspace) (lookup : Lookup) (uri : Uri) (pos : Position)
    (s : σ) : List (Moment σ) :=
  (codePlaces backend.watched w lookup uri pos (.start s)).2.moments

/-- The moments of the first half of a rename that starts in state `s`. -/
def renameMoments (backend : Backend σ) (w : Workspace) (uri : Uri) (pos : Position) (newName : String)
    (s : σ) : List (Moment σ) :=
  (renamed backend.watched w uri pos newName (.start s)).2.moments

/-- **Cancelled requests.**  A request whose token is raised at any moment of its first half gives nothing. If
the backend answers a question of the first half by saying that the request is cancelled, the first half
gives nothing, and the request gives what comes behind that: nothing if the token is raised by then, and else
what the other services find. -/
theorem requests_cancelled {tools : Tools σ} {raised : σ → Prop} (hlatch : Latch tools.backend raised)
    (w : Workspace) (uri : Uri) (pos : Position) (newName : String) (s : σ) :
    (∀ lookup,
      ((∃ m ∈ lookupMoments tools.backend (w.refresh uri) lookup uri pos s, raised m.state) →
        (lookupRequest tools w lookup uri pos s).1.1 = []) ∧
      ((∃ m ∈ lookupMoments tools.backend (w.refresh uri) lookup uri pos s, m.refused = true) →
        (lookupRequest tools w lookup uri pos s).1.1 =
          (locationsBehind tools (w.refresh uri) (stylePlaces tools.style (w.refresh uri) lookup uri pos)
            (codePlaces tools.backend (w.refresh uri) lookup uri pos s).2).1)) ∧
    ((∃ m ∈ renameMoments tools.backend (w.refresh uri) uri pos newName s, raised m.state) →
      (rename tools w uri pos newName s).1.1 = none) ∧
    ((∃ m ∈ renameMoments tools.backend (w.refresh uri) uri pos newName s, m.refused = true) →
      (rename tools w uri pos newName s).1.1 =
        (editsBehind tools (w.refresh uri) uri pos newName []
          (renamed tools.backend (w.refresh uri) uri pos newName s).2).1) := by
  have hrename := hlatch.watches_renamed (w.refresh uri) uri pos newName
  refine ⟨fun lookup => ⟨fun hraised => ?_, fun hrefused => ?_⟩, fun hraised => ?_, fun hrefused => ?_⟩
  · have hhalf := hlatch.watches_codePlaces (w.refresh uri) lookup uri pos
    rw [lookupRequest_eq]
    exact locationsBehind_of_raised hlatch _ _ (hhalf.raised_of_moment hraised)
  · have hhalf := hlatch.watches_codePlaces (w.refresh uri) lookup uri pos
    rw [lookupRequest_eq, hhalf.eq_nil_of_moment hrefused, List.nil_append]
  · rw [rename_eq]
    exact editsBehind_of_raised hlatch _ _ _ _ _ (hrename.raised_of_moment hraised)
  · rw [rename_eq, hrename.eq_nil_of_moment hrefused]

/-- A style service that finds every class behind the first character of its stylesheet. -/
def firstClass : StyleService where
  definition _ _ := .ok none
  references d _ := .ok [⟨d.uri, ⟨1, 2⟩⟩]
  rename _ _ _ := .ok ∅
  colors _ := .ok []

/-- A component with a class that its template uses. -/
def oneClass : Workspace :=
  Session.after ⟨Session.silentBackend, none, none⟩ {}
    [.opened ⟨⟨"file:///A.vue"⟩, 1, "vue",
      "<template><p class=\"a\"/></template><style scoped>.a\x7b\x7d</style>"⟩]

/-- A backend that finds every symbol in the stylesheet itself, while its token, which is the state, is being
raised. -/
def interrupted : Backend Bool where
  isCancelled := get
  find _ _ _ := fun _ => (.ok [⟨⟨"file:///a.css"⟩, ⟨0, 1⟩⟩], true)
  rename _ _ _ := fun _ => (.ok ∅, true)
  diagnostics _ _ := pure (.ok [])
  completionDetails _ _ _ := pure (.ok none)
  text? _ := pure (some "a")

theorem interrupted_latch : Latch interrupted (· = true) where
  told _ h := h
  isCancelled _ h := h
  find _ _ _ _ _ := rfl
  rename _ _ _ _ _ := rfl
  text? _ _ h := h

theorem requests_cancelled_interrupted :
    (∃ m ∈ lookupMoments interrupted (oneClass.refresh ⟨"file:///A.vue"⟩) .references ⟨"file:///A.vue"⟩
      ⟨0, 50⟩ false, m.state = true) ∧
    (lookupRequest ⟨interrupted, some firstClass, none⟩ oneClass .references ⟨"file:///A.vue"⟩ ⟨0, 50⟩
      false).1.1 = [] := by
  have hraised : ∃ m ∈ lookupMoments interrupted (oneClass.refresh ⟨"file:///A.vue"⟩) .references
      ⟨"file:///A.vue"⟩ ⟨0, 50⟩ false, m.state = true := by decide +kernel
  exact ⟨hraised, ((@requests_cancelled _ ⟨interrupted, some firstClass, none⟩ (· = true) interrupted_latch
    oneClass ⟨"file:///A.vue"⟩ ⟨0, 50⟩ "" false).1 .references).1 hraised⟩

/-- A backend that answers every question by saying that the request is cancelled. Its token stays down. -/
def refusing : Backend Unit :=
  { Session.silentBackend with
    find := fun _ _ _ => pure (.error .cancelled)
    rename := fun _ _ _ => pure (.error .cancelled) }

/-- A request about a class that goes on behind the answer that it is cancelled: it gives the use that the style
service finds, and misses the one in the template. -/
theorem references_refused :
    (∃ m ∈ lookupMoments refusing (oneClass.refresh ⟨"file:///A.vue"⟩) .references ⟨"file:///A.vue"⟩ ⟨0, 50⟩
      (), m.refused = true) ∧
    (references ⟨refusing, some firstClass, none⟩ oneClass ⟨"file:///A.vue"⟩ ⟨0, 50⟩ ()).1.1 =
      [⟨⟨"file:///A.vue"⟩, ⟨⟨0, 50⟩, ⟨0, 51⟩⟩⟩] := by
  decide +kernel

end ComponentLens.Service
