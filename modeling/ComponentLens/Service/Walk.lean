/-
# Following links

An answer of the backend may lie on a link to another spelling of the same symbol. The backend knows nothing
of links, so it is asked again at the far end. A `Walk` holds the questions still to ask and the places
already seen. A far end that has been seen is not asked about, and a place that comes up again is passed
over, so a walk ends as soon as the backend gives no new place.

Offsets have 32 bits. A document therefore has at most `spanCount` places, every place leads on through
each link in at most two ways, and `maxQuestions` bounds the questions of a walk.
-/
import ComponentLens.Service.MapBack

namespace ComponentLens.Service

variable {σ α : Type}

/-! ## 1. Questions -/

/-- A question about an offset of a document. A rename carries its new name. -/
structure Question where
  uri : Uri
  offset : Nat
  name : String := ""
  deriving DecidableEq, Repr

/-- The questions that are open, the places that have been seen, and the answers that brought a new one. -/
structure Walk (α : Type) where
  open_ : List Question
  seen : List Place := []
  found : List (Place × α) := []

/-- The far ends of the links at a place, as far as a request that started in `origin` may follow them. -/
def linkEnds (builds : BuildCache) (wanted : LinkCapabilities) (origin : Region) (p : Place) :
    List LinkEnd :=
  match builds.codeDocument? p.uri with
  | some (_, d) => (d.links.ends p.span origin).filter (·.data.capabilities.has wanted)
  | none => []

/-! ## 2. One answer -/

/-- The question about the far end of a link. -/
def Question.follow (q : Question) (uri : Uri) (e : LinkEnd) : Question :=
  ⟨uri, e.range.start, respell e.nameTransform q.name⟩

/-- Takes in one place that question `q` was answered with. -/
def Walk.take (ends : Place → List LinkEnd) (q : Question) (w : Walk α) (answer : Place × α) : Walk α :=
  let place := answer.1
  if w.seen.contains place then w
  else
    let seen := place :: w.seen
    let further := (ends place).filter fun e => !seen.contains ⟨place.uri, e.range⟩
    { open_ := w.open_ ++ further.map (q.follow place.uri), seen, found := w.found ++ [answer] }

/-! ## 3. A whole walk -/

/-- The number of spans with ends of 32 bits. -/
def spanCount : Nat := UInt32.size * UInt32.size

/-- The number of links in the documents of the held builds. -/
def linkCount (builds : BuildCache) : Nat :=
  ((builds.held.values.flatMap (·.build.codeDocuments)).flatMap (·.links.map.mappings)).length

/-- A bound of the questions that one start can lead to. -/
def maxQuestions (builds : BuildCache) : Nat := 1 + 2 * (spanCount * linkCount builds)

/-- Asks question after question, at most `fuel`. A question that is not answered brings nothing. `none`
means that the request is cancelled. -/
def Walk.run (isCancelled : StateM σ Bool) (ask : Question → StateM σ (Reply (List (Place × α))))
    (ends : Place → List LinkEnd) (fuel : Nat) (w : Walk α) : StateM σ (Option (Walk α)) :=
  match w.open_, fuel with
  | [], _ => pure (some w)
  | _ :: _, 0 => pure none
  | q :: rest, fuel + 1 => do
    if ← isCancelled then return none
    let w := { w with open_ := rest }
    match ← ask q with
    | .ok answers => Walk.run isCancelled ask ends fuel (answers.foldl (Walk.take ends q) w)
    | .error .cancelled => return none
    | .error _ => Walk.run isCancelled ask ends fuel w

/-! ## 4. Several starts -/

/-- Where a request starts. -/
structure Start where
  question : Question
  /-- The region of the component that the request comes from. -/
  origin : Region
  deriving DecidableEq, Repr

/-- What the walks from all starts find. They share what has been seen. -/
def follow (isCancelled : StateM σ Bool) (ask : Question → StateM σ (Reply (List (Place × α))))
    (builds : BuildCache) (wanted : LinkCapabilities) (seen : List Place) :
    List Start → StateM σ (Option (List (Place × α)))
  | [] => pure (some [])
  | start :: rest => do
    let walk : Walk α := { open_ := [start.question], seen }
    match ← walk.run isCancelled ask (linkEnds builds wanted start.origin) (maxQuestions builds) with
    | none => return none
    | some walk =>
      let later ← follow isCancelled ask builds wanted walk.seen rest
      return later.map (walk.found ++ ·)

/-- The starts of a request at an offset. A new name is spelled as the mapping asks for. -/
def starts (b : Virtual.Build) (offset : Nat) (wanted : Capabilities) (name : String) : List Start :=
  b.codeDocuments.flatMap fun d =>
    ((d.map.toTargets (Span.empty offset)).filter (·.data.capabilities.has wanted)).map fun hit =>
      ⟨⟨d.document.uri, hit.range.start, respell hit.data.beforeRename name⟩, hit.data.region⟩

end ComponentLens.Service
