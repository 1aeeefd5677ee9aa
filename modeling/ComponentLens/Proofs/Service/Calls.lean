/-
# Calls that share what they have seen

A request makes a call from each of its starts: it asks the backend, follows links and asks again, until nothing
is left to ask.  The calls share what has been seen.  `resolver_bounded` says that any sequence of calls comes to
an end, each call after no more questions than `Call.bound`, and that no place is returned twice.

What a call asks is counted in two ways, since neither is enough alone.  `Serves` runs the calls without any bound,
goes on after one that was cancelled, and names the questions of each.  But it is no program.  So the program is
run as well, with a backend that writes down what is said to it, and says just as much (`Served.Performed`).  For
a whole request this is `follow_bounded`.
-/
import ComponentLens.Proofs.Service.Recording
import ComponentLens.Proofs.Service.WalkBound
import Mathlib.Algebra.BigOperators.Ring.Finset

namespace ComponentLens.Service

variable {σ α : Type}

/-! ## 1. One call -/

/-- What a request wants: the places of a symbol, or the edits that rename it. -/
inductive Errand where
  | places (lookup : Lookup)
  | rename
  deriving DecidableEq, Repr

/-- What comes with a place. -/
def Errand.Payload : Errand → Type
  | .places _ => Unit
  | .rename => String

/-- What the backend is asked. -/
def Errand.ask (backend : Backend σ) :
    (e : Errand) → Question → StateM σ (Reply (List (Place × e.Payload)))
  | .places lookup => askPlaces backend lookup
  | .rename => askEdits backend

/-- The links that may be followed. -/
def Errand.wanted : Errand → LinkCapabilities
  | .places lookup => lookup.linkCapability
  | .rename => .rename

/-- A request from one start, over the builds that are held when it is made. -/
structure Call where
  errand : Errand
  builds : BuildCache
  start : Start

/-- The ends that a call may follow. -/
def Call.ends (c : Call) : Place → List LinkEnd := linkEnds c.builds c.errand.wanted c.start.origin

/-- The walk that a call begins with. -/
def Call.begin (c : Call) (seen : List Place) : Walk c.errand.Payload :=
  { open_ := [c.start.question], seen }

/-- The walk of `follow` from one start. -/
def Call.run (backend : Backend σ) (c : Call) (seen : List Place) :
    StateM σ (Option (Walk c.errand.Payload)) :=
  (c.begin seen).run backend.isCancelled (c.errand.ask backend) c.ends (maxQuestions c.builds)

/-- The call comes to the given end. -/
def Call.Runs (backend : Backend σ) (c : Call) (seen : List Place) (s : σ)
    (o : Walk.Outcome σ c.errand.Payload) : Prop :=
  Walk.Loop backend.isCancelled (c.errand.ask backend) c.ends (c.begin seen) s o

/-- The number of links in the document of a place. -/
def linkCountAt (builds : BuildCache) (p : Place) : Nat :=
  match builds.codeDocument? p.uri with
  | some (_, d) => d.links.size
  | none => 0

/-- The most questions of a call whose answers come from `L`: the one that it starts with, and two for each link
of the document of each place. -/
def Call.bound (c : Call) (L : Finset Place) : Nat := 1 + 2 * ∑ p ∈ L, linkCountAt c.builds p

/-- A place leads on at most twice through each link. -/
theorem length_linkEnds_le_linkCountAt (builds : BuildCache) (wanted : LinkCapabilities) (origin : Region)
    (p : Place) : (linkEnds builds wanted origin p).length ≤ 2 * linkCountAt builds p := by
  cases hfound : builds.codeDocument? p.uri with
  | none => simp [linkEnds, hfound]
  | some found =>
    obtain ⟨b, d⟩ := found
    rw [linkEnds, linkCountAt, hfound]
    exact (List.length_filter_le ..).trans (length_ends_le ..)

theorem Call.sum_ends_le (c : Call) (L : Finset Place) :
    1 + ∑ p ∈ L, (c.ends p).length ≤ c.bound L := by
  rw [Call.bound, Finset.mul_sum]
  exact Nat.add_le_add_left (Finset.sum_le_sum fun p _ => length_linkEnds_le_linkCountAt ..) 1

/-- Every place that the backend answers with comes from `L`. -/
structure Backend.DrawnFrom (backend : Backend σ) (L : Finset Place) : Prop where
  find : ∀ lookup uri offset s places, (backend.find lookup uri offset s).1 = .ok places →
    ∀ p ∈ places, p ∈ L
  rename : ∀ uri offset name s changes, (backend.rename uri offset name s).1 = .ok changes →
    ∀ e ∈ changes.placed, e.place ∈ L

variable {L : Finset Place} {backend : Backend σ}

/-- Whatever is asked, the places answered come from `L`. -/
theorem Backend.DrawnFrom.ask (h : backend.DrawnFrom L) (e : Errand) (k : Question) (s : σ)
    (answers : List (Place × e.Payload)) (hanswers : (e.ask backend k s).1 = .ok answers) :
    ∀ answer ∈ answers, answer.1 ∈ L := by
  cases e with
  | places lookup =>
    have hmap : ((backend.find lookup k.uri k.offset s).1.map fun places => places.map (·, ())) =
        .ok answers := hanswers
    cases hfind : (backend.find lookup k.uri k.offset s).1 with
    | error e => simp [hfind, Except.map] at hmap
    | ok places =>
      rw [hfind] at hmap
      cases hmap
      intro answer hanswer
      obtain ⟨p, hp, rfl⟩ := List.mem_map.1 hanswer
      exact h.find lookup k.uri k.offset s places hfind p hp
  | rename =>
    have hmap : ((backend.rename k.uri k.offset k.name s).1.map fun changes =>
        changes.placed.map fun e => (e.place, e.newText)) = .ok answers := hanswers
    cases hrename : (backend.rename k.uri k.offset k.name s).1 with
    | error e => simp [hrename, Except.map] at hmap
    | ok changes =>
      rw [hrename] at hmap
      cases hmap
      intro answer hanswer
      obtain ⟨e, he, rfl⟩ := List.mem_map.1 hanswer
      exact h.rename k.uri k.offset k.name s changes hrename e he

/-- **One call** comes to its end.  It asks at most its bound, and what it has seen since is what it found. -/
theorem Call.exists_runs (hdrawn : backend.DrawnFrom L) (c : Call) {seen : List Place}
    (hseen : seen.Nodup) (s : σ) :
    ∃ o, c.Runs backend seen s o ∧ o.walk.Drawn L seen ∧ o.asked.length ≤ c.bound L ∧
      o.asked.length + o.walk.open_.length ≤ 1 + ∑ p ∈ L, (c.ends p).length := by
  have hbegin : (c.begin seen).Drawn L seen := .begin c.start.question hseen
  obtain ⟨o, hloop, hend, hasked⟩ := hbegin.exists_loop (hdrawn.ask c.errand) c.ends
    (1 + ∑ p ∈ L, (c.ends p).length) s (by simp [Call.begin, Walk.leads, Walk.places])
  have hbound := c.sum_ends_le L
  exact ⟨o, hloop, hend, by omega, hasked⟩

/-- **The bound of `follow` is never met**, so its walk from one start is the walk without a bound. -/
theorem Call.Runs.run_eq (hdrawn : backend.DrawnFrom L) (hsmall : ∀ p ∈ L, p.IsSmall) {c : Call}
    {seen : List Place} (hseen : seen.Nodup) {s : σ} {o : Walk.Outcome σ c.errand.Payload}
    (h : c.Runs backend seen s o) : c.run backend seen s = (o.result, o.state) := by
  obtain ⟨o', hloop, -, -, hasked⟩ := c.exists_runs hdrawn hseen s
  obtain rfl := Walk.Loop.unique h hloop
  have hsum : ∑ p ∈ L, (c.ends p).length < maxQuestions c.builds := by
    have hlist := sum_linkEnds_le c.builds c.errand.wanted c.start.origin L.nodup_toList
      (fun p hp => hsmall p (Finset.mem_toList.1 hp))
    rwa [Finset.sum_map_toList] at hlist
  exact Walk.Loop.run_eq h (by omega)

/-! ## 2. What a call says to the backend -/

/-- The same end, with what has been said up to it. -/
def Walk.Outcome.recorded {α : Type} (o : Walk.Outcome σ α) (exchanges : List Exchange) :
    Walk.Outcome (Recorded σ) α :=
  ⟨o.asked, o.walk, o.cancelled, ⟨o.state, exchanges⟩⟩

/-- **A recorded walk** comes to the same end, and one exchange is written down for each question. -/
theorem Walk.Loop.recorded {α : Type} {isCancelled : StateM σ Bool}
    {ask : Question → StateM σ (Reply (List (Place × α)))}
    {ask' : Question → StateM (Recorded σ) (Reply (List (Place × α)))} {ends : Place → List LinkEnd}
    (hask : ∀ k s before, (ask' k ⟨s, before⟩).1 = (ask k s).1 ∧
      ∃ e, (ask' k ⟨s, before⟩).2 = ⟨(ask k s).2, before ++ [e]⟩)
    {w : Walk α} {s : σ} {o : Walk.Outcome σ α} (h : Walk.Loop isCancelled ask ends w s o)
    (before : List Exchange) :
    ∃ said, said.length = o.asked.length ∧
      Walk.Loop (offRecord isCancelled) ask' ends w ⟨s, before⟩ (o.recorded (before ++ said)) := by
  induction h generalizing before with
  | finished hopen => exact ⟨[], rfl, (List.append_nil before).symm ▸ .finished hopen⟩
  | stopped hopen hcancel => exact ⟨[], rfl, (List.append_nil before).symm ▸ .stopped hopen hcancel⟩
  | @answered w s k rest answers o hopen hgoes hreply hrest ih =>
    obtain ⟨hsame, e, hstate⟩ := hask k (isCancelled s).2 before
    obtain ⟨said, hlength, hloop⟩ := ih (before ++ [e])
    rw [← hstate, List.append_assoc, List.singleton_append] at hloop
    exact ⟨e :: said, congrArg Nat.succ hlength,
      .answered (o := o.recorded (before ++ e :: said)) hopen hgoes (hsame.trans hreply) hloop⟩
  | @failed w s k rest failure o hopen hgoes hreply hfailed hrest ih =>
    obtain ⟨hsame, e, hstate⟩ := hask k (isCancelled s).2 before
    obtain ⟨said, hlength, hloop⟩ := ih (before ++ [e])
    rw [← hstate, List.append_assoc, List.singleton_append] at hloop
    exact ⟨e :: said, congrArg Nat.succ hlength,
      .failed (o := o.recorded (before ++ e :: said)) hopen hgoes (hsame.trans hreply) hfailed hloop⟩
  | @refused w s k rest hopen hgoes hreply =>
    obtain ⟨hsame, e, hstate⟩ := hask k (isCancelled s).2 before
    have hloop : Walk.Loop (offRecord isCancelled) ask' ends w ⟨s, before⟩
        ⟨[k], { w with open_ := rest }, true, (ask' k ⟨(isCancelled s).2, before⟩).2⟩ :=
      .refused hopen hgoes (hsame.trans hreply)
    rw [hstate] at hloop
    exact ⟨[e], rfl, hloop⟩

theorem Errand.ask_recorded (backend : Backend σ) (e : Errand) (k : Question) (s : σ)
    (before : List Exchange) :
    (e.ask backend.recorded k ⟨s, before⟩).1 = (e.ask backend k s).1 ∧
      ∃ x, (e.ask backend.recorded k ⟨s, before⟩).2 = ⟨(e.ask backend k s).2, before ++ [x]⟩ := by
  cases e with
  | places lookup => exact ⟨rfl, _, rfl⟩
  | rename => exact ⟨rfl, _, rfl⟩

theorem Backend.DrawnFrom.recorded (h : backend.DrawnFrom L) : backend.recorded.DrawnFrom L where
  find lookup uri offset t := h.find lookup uri offset t.state
  rename uri offset name t := h.rename uri offset name t.state

/-- **One exchange for each question** is what a call says to the backend. -/
theorem Call.Runs.run_recorded (hdrawn : backend.DrawnFrom L) (hsmall : ∀ p ∈ L, p.IsSmall) {c : Call}
    {seen : List Place} (hseen : seen.Nodup) {s : σ} {o : Walk.Outcome σ c.errand.Payload}
    (h : c.Runs backend seen s o) (before : List Exchange) :
    ∃ said, said.length = o.asked.length ∧
      c.run backend.recorded seen ⟨s, before⟩ = (o.result, ⟨o.state, before ++ said⟩) := by
  obtain ⟨said, hlength, hloop⟩ := Walk.Loop.recorded (c.errand.ask_recorded backend) h before
  exact ⟨said, hlength, Call.Runs.run_eq hdrawn.recorded hsmall hseen hloop⟩

/-! ## 3. Calls that share what has been seen -/

/-- A call that has come back. -/
structure Served (σ : Type) where
  call : Call
  /-- What had been seen when it was made, and how things stood. -/
  seen : List Place
  state : σ
  outcome : Walk.Outcome σ call.errand.Payload

/-- The places that a walk returns; nothing when cancelled. -/
def Walk.Outcome.returned (o : Walk.Outcome σ α) : Option (List Place) := o.result.map (·.places)

/-- The calls are made one after the other, and each goes on with what has been seen, also after one that was
cancelled. -/
inductive Serves (backend : Backend σ) : List Place → σ → List Call → List (Served σ) → Prop
  | nil (seen : List Place) (s : σ) : Serves backend seen s [] []
  | cons {c : Call} {calls : List Call} {seen : List Place} {s : σ} {served : List (Served σ)}
      {o : Walk.Outcome σ c.errand.Payload} (hruns : c.Runs backend seen s o)
      (hrest : Serves backend o.walk.seen o.state calls served) :
      Serves backend seen s (c :: calls) (⟨c, seen, s, o⟩ :: served)

/-- The places that calls returned. -/
def returnedPlaces (served : List (Served σ)) : List Place := served.flatMap (·.outcome.returned.getD [])

/-- The walk of `follow` from the start of the call does as the call did: it gives the same, leaves the same state
behind, and says to the backend as many things as the call asked questions. -/
structure Served.Performed (backend : Backend σ) (m : Served σ) : Prop where
  run : m.call.run backend m.seen m.state = (m.outcome.result, m.outcome.state)
  said : ∀ before, ∃ said, said.length = m.outcome.asked.length ∧
    m.call.run backend.recorded m.seen ⟨m.state, before⟩ = (m.outcome.result, ⟨m.outcome.state, before ++ said⟩)

/-- However many calls are made, all of them come back. -/
theorem exists_serves (hdrawn : backend.DrawnFrom L) (calls : List Call) {seen : List Place}
    (hseen : seen.Nodup) (s : σ) : ∃ served, Serves backend seen s calls served := by
  induction calls generalizing seen s with
  | nil => exact ⟨[], .nil seen s⟩
  | cons c calls ih =>
    obtain ⟨o, hruns, hend, -⟩ := c.exists_runs hdrawn hseen s
    obtain ⟨served, hserves⟩ := ih hend.nodup o.state
    exact ⟨_, .cons hruns hserves⟩

/-- **Each call keeps to its bound**, and the walk of `follow` does as it did. -/
theorem Serves.asked_le (hdrawn : backend.DrawnFrom L) {seen : List Place} {s : σ} {calls : List Call}
    {served : List (Served σ)} (h : Serves backend seen s calls served) (hseen : seen.Nodup) :
    ∀ m ∈ served, m.outcome.asked.length ≤ m.call.bound L ∧
      ((∀ p ∈ L, p.IsSmall) → m.Performed backend) := by
  induction h with
  | nil => simp
  | @cons c calls seen s served o hruns hrest ih =>
    obtain ⟨o', hruns', hend, hasked, -⟩ := c.exists_runs hdrawn hseen s
    obtain rfl := Walk.Loop.unique hruns hruns'
    intro m hm
    rcases List.mem_cons.1 hm with rfl | hm
    · exact ⟨hasked, fun hsmall =>
        ⟨hruns.run_eq hdrawn hsmall hseen, hruns.run_recorded hdrawn hsmall hseen⟩⟩
    · exact ih hend.nodup m hm

/-- A call that was cancelled returns nothing, though it may have seen new places. -/
theorem Walk.Outcome.returned_sublist (o : Walk.Outcome σ α) :
    (o.returned.getD []).Sublist o.walk.places := by
  unfold Walk.Outcome.returned Walk.Outcome.result
  split
  · exact List.nil_sublist _
  · exact List.Sublist.refl _

/-- **What calls return one after the other** is new, distinct, and comes from `L`. -/
theorem Serves.returned_new (hdrawn : backend.DrawnFrom L) {seen : List Place} {s : σ} {calls : List Call}
    {served : List (Served σ)} (h : Serves backend seen s calls served) (hseen : seen.Nodup) :
    (returnedPlaces served).Nodup ∧ ∀ p ∈ returnedPlaces served, p ∈ L ∧ p ∉ seen := by
  induction h with
  | nil => simp [returnedPlaces]
  | @cons c calls seen s served o hruns hrest ih =>
    obtain ⟨o', hruns', hend, -⟩ := c.exists_runs hdrawn hseen s
    obtain rfl := Walk.Loop.unique hruns hruns'
    obtain ⟨hnodup, hlater⟩ := ih hend.nodup
    exact hend.append_new o.returned_sublist hnodup hlater

/-! ## 4. Requests with several starts -/

/-- The calls that a request makes, one from each start. -/
def callsFrom (errand : Errand) (builds : BuildCache) (starts : List Start) : List Call :=
  starts.map fun start => ⟨errand, builds, start⟩

/-- **A request keeps to the bounds of its calls.**  Writing down changes nothing that it gives and no state that
it leaves behind, it says no more to the backend than its calls may ask, and what it finds is new and distinct. -/
theorem follow_bounded (hdrawn : backend.DrawnFrom L) (hsmall : ∀ p ∈ L, p.IsSmall) (errand : Errand)
    (builds : BuildCache) (starts : List Start) {seen : List Place} (hseen : seen.Nodup) (s : σ)
    (before : List Exchange) :
    ∃ found state said,
      follow backend.isCancelled (errand.ask backend) builds errand.wanted seen starts s = (found, state) ∧
      follow backend.recorded.isCancelled (errand.ask backend.recorded) builds errand.wanted seen starts
        ⟨s, before⟩ = (found, ⟨state, before ++ said⟩) ∧
      said.length ≤ ((callsFrom errand builds starts).map (·.bound L)).sum ∧
      ∀ answers ∈ found, (answers.map (·.1)).Nodup ∧ ∀ p ∈ answers.map (·.1), p ∈ L ∧ p ∉ seen := by
  induction starts generalizing seen s before with
  | nil => exact ⟨some [], s, [], rfl, by rw [List.append_nil]; rfl, Nat.le_refl _, by simp⟩
  | cons start starts ih =>
    obtain ⟨o, hruns, hend, hasked, -⟩ := Call.exists_runs hdrawn ⟨errand, builds, start⟩ hseen s
    have hrun : Walk.run backend.isCancelled (errand.ask backend)
        (linkEnds builds errand.wanted start.origin) (maxQuestions builds)
        { open_ := [start.question], seen } s = (o.result, o.state) := hruns.run_eq hdrawn hsmall hseen
    obtain ⟨said, hsaid, hrecorded⟩ := hruns.run_recorded hdrawn hsmall hseen before
    have hrecorded : Walk.run backend.recorded.isCancelled (errand.ask backend.recorded)
        (linkEnds builds errand.wanted start.origin) (maxQuestions builds)
        { open_ := [start.question], seen } ⟨s, before⟩ = (o.result, ⟨o.state, before ++ said⟩) := hrecorded
    have hbounds : ((callsFrom errand builds (start :: starts)).map (·.bound L)).sum =
        (Call.mk errand builds start).bound L + ((callsFrom errand builds starts).map (·.bound L)).sum := by
      rw [callsFrom, List.map_cons, List.map_cons, List.sum_cons, callsFrom]
    unfold follow
    simp only [bind, StateT.bind, hrun, hrecorded, Walk.Outcome.result]
    cases o.cancelled with
    | true =>
      refine ⟨none, o.state, said, rfl, rfl, ?_, by simp⟩
      omega
    | false =>
      obtain ⟨later, state, more, hlater, hmore, hcount, hnew⟩ := ih hend.nodup o.state (before ++ said)
      simp only [Bool.false_eq_true, if_false, StateT.bind, hlater, hmore]
      refine ⟨later.map (o.walk.found ++ ·), state, said ++ more, rfl, by rw [List.append_assoc]; rfl, ?_, ?_⟩
      · rw [List.length_append]
        omega
      · intro answers hanswers
        obtain ⟨found, rfl, rfl⟩ := Option.map_eq_some_iff.1 hanswers
        obtain ⟨hnodup, hfresh⟩ := hnew found rfl
        rw [List.map_append]
        exact hend.append_new (List.Sublist.refl _) hnodup hfresh

/-- **Following links ends, and brings no place twice.**  Let every place that the backend answers with come
from `L`; the backend may contradict itself, fail, or be cancelled at any time.  Then any calls that share
what has been seen, each over its own builds, come to their end.  None asks more than one question, and two
for each link of the document of each place in `L`, and all calls together return no place twice.  The walk of
`follow`, which has a bound of its own, gives the same, leaves the same state behind, and says as much to the
backend.  So a whole request says no more to it than the bounds of its calls come to. -/
theorem resolver_bounded (hdrawn : backend.DrawnFrom L) (s : σ) :
    (∀ calls, (∃ served, Serves backend [] s calls served) ∧ ∀ served, Serves backend [] s calls served →
      (∀ m ∈ served, m.outcome.asked.length ≤ m.call.bound L ∧
        ((∀ p ∈ L, p.IsSmall) → m.Performed backend)) ∧
      (returnedPlaces served).Nodup ∧ ∀ p ∈ returnedPlaces served, p ∈ L) ∧
    ((∀ p ∈ L, p.IsSmall) → ∀ errand builds starts before, ∃ found state said,
      follow backend.isCancelled (errand.ask backend) builds errand.wanted [] starts s = (found, state) ∧
      follow backend.recorded.isCancelled (errand.ask backend.recorded) builds errand.wanted [] starts
        ⟨s, before⟩ = (found, ⟨state, before ++ said⟩) ∧
      said.length ≤ ((callsFrom errand builds starts).map (·.bound L)).sum ∧
      ∀ answers ∈ found, (answers.map (·.1)).Nodup ∧ ∀ p ∈ answers.map (·.1), p ∈ L) := by
  constructor
  · intro calls
    refine ⟨exists_serves hdrawn calls List.nodup_nil s, fun served h => ?_⟩
    obtain ⟨hnodup, hnew⟩ := h.returned_new hdrawn List.nodup_nil
    exact ⟨h.asked_le hdrawn List.nodup_nil, hnodup, fun p hp => (hnew p hp).1⟩
  · intro hsmall errand builds starts before
    obtain ⟨found, state, said, hfollow, hrecorded, hcount, hnew⟩ :=
      follow_bounded hdrawn hsmall errand builds starts List.nodup_nil s before
    refine ⟨found, state, said, hfollow, hrecorded, hcount, fun answers hanswers => ?_⟩
    obtain ⟨hnodup, hfresh⟩ := hnew answers hanswers
    exact ⟨hnodup, fun p hp => (hfresh p hp).1⟩

/-- The places of the two symbols. -/
def twoSymbolPlaces : Finset Place := {⟨twoSymbolsUri, ⟨0, 1⟩⟩, ⟨twoSymbolsUri, ⟨2, 3⟩⟩}

/-- A backend that counts the questions.  It fails every other time, gives both symbols as one otherwise, and
takes the third question for the last. -/
def fickleBackend : Backend Nat where
  isCancelled := modifyGet fun n => (decide (3 ≤ n), n)
  find _ _ _ := modifyGet fun n =>
    (if n % 2 = 0 then .ok [⟨twoSymbolsUri, ⟨2, 3⟩⟩, ⟨twoSymbolsUri, ⟨0, 1⟩⟩]
      else .error (.failed "busy"), n + 1)
  rename _ _ name := modifyGet fun n => (.ok { entries := [(twoSymbolsUri, [⟨⟨0, 1⟩, name⟩])] }, n + 1)
  diagnostics _ _ := pure (.ok [])
  completionDetails _ _ _ := pure (.ok none)
  text? _ := pure none

theorem fickleBackend_drawnFrom : fickleBackend.DrawnFrom twoSymbolPlaces where
  find lookup uri offset n places hfind p hp := by
    have hfind : (if n % 2 = 0 then
        (.ok [⟨twoSymbolsUri, ⟨2, 3⟩⟩, ⟨twoSymbolsUri, ⟨0, 1⟩⟩] : Reply (List Place))
      else .error (.failed "busy")) = .ok places := hfind
    split at hfind
    · cases hfind
      simp only [List.mem_cons, List.not_mem_nil, or_false] at hp
      rcases hp with rfl | rfl <;> decide
    · cases hfind
  rename uri offset name n changes hrename e he := by
    cases hrename
    obtain rfl : e = ⟨⟨twoSymbolsUri, ⟨0, 1⟩⟩, name⟩ := by simpa [Changes.placed] using he
    exact Finset.mem_insert_self _ _

/-- The premises can be met by a backend that keeps to nothing but its two places. -/
theorem resolver_bounded_fickle :
    fickleBackend.DrawnFrom twoSymbolPlaces ∧ (∀ p ∈ twoSymbolPlaces, p.IsSmall) ∧
    let start : Start := ⟨⟨twoSymbolsUri, 0, ""⟩, .template⟩
    let calls : List Call := [⟨.places .references, twoSymbolsBuilds, start⟩,
      ⟨.rename, twoSymbolsBuilds, ⟨⟨twoSymbolsUri, 2, "c"⟩, .template⟩⟩]
    (∃ served, Serves fickleBackend [] 0 calls served ∧ (∀ m ∈ served,
      m.outcome.asked.length ≤ m.call.bound twoSymbolPlaces ∧ m.Performed fickleBackend) ∧
      (returnedPlaces served).Nodup ∧ ∀ p ∈ returnedPlaces served, p ∈ twoSymbolPlaces) ∧
    ∃ found state said,
      follow fickleBackend.isCancelled ((Errand.places .references).ask fickleBackend) twoSymbolsBuilds
        .references [] [start] 0 = (found, state) ∧
      follow fickleBackend.recorded.isCancelled ((Errand.places .references).ask fickleBackend.recorded)
        twoSymbolsBuilds .references [] [start] ⟨0, []⟩ = (found, ⟨state, [] ++ said⟩) ∧
      said.length ≤ ((callsFrom (.places .references) twoSymbolsBuilds [start]).map
        (·.bound twoSymbolPlaces)).sum ∧
      ∀ answers ∈ found, (answers.map (·.1)).Nodup ∧ ∀ p ∈ answers.map (·.1), p ∈ twoSymbolPlaces := by
  have hsmall : ∀ p ∈ twoSymbolPlaces, p.IsSmall := by
    simp [twoSymbolPlaces, Place.IsSmall, UInt32.size]
  obtain ⟨hcalls, hrequest⟩ := resolver_bounded fickleBackend_drawnFrom 0
  refine ⟨fickleBackend_drawnFrom, hsmall, ?_, hrequest hsmall (.places .references) twoSymbolsBuilds _ []⟩
  obtain ⟨⟨served, hserves⟩, hall⟩ := hcalls _
  obtain ⟨hbounds, hdistinct⟩ := hall served hserves
  exact ⟨served, hserves, fun m hm => ⟨(hbounds m hm).1, (hbounds m hm).2 hsmall⟩, hdistinct⟩

end ComponentLens.Service
