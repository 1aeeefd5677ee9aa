/-
# Properties that joining keeps

A generated document is put together from pieces, so what is to be shown of the document is shown of its
pieces.  A property is closed when it holds of text that is mapped nowhere and of joined pieces that have it.
A property of text with links may also pay no heed to them (`LinkedText.Closed`): links and marks are laid over
pieces that exist already.

The walks over a component are written once, for any closed property.
-/
import ComponentLens.Mapping.LinkedText

namespace ComponentLens

/-- The property holds of text that is mapped nowhere, and of joined pieces that have it. -/
structure MappedText.Closed {α : Type} (Q : MappedText α → Prop) : Prop where
  plain : ∀ text : String, Q (.plain text)
  concat : ∀ ts : List (MappedText α), (∀ t ∈ ts, Q t) → Q (.concat ts)

/-- The property holds of plain text and of joined pieces that have it. -/
structure LinkedText.Joined (Q : LinkedText → Prop) : Prop where
  plain : ∀ text : String, Q (.plain text)
  concat : ∀ ts : List LinkedText, (∀ t ∈ ts, Q t) → Q (.concat ts)

/-- The property holds of plain text and of joined pieces that have it, whatever links and marks there are. -/
structure LinkedText.Closed (Q : LinkedText → Prop) : Prop extends LinkedText.Joined Q where
  relabel : ∀ {t u : LinkedText}, Q t → u.body = t.body → Q u

/-- What holds of text without links holds of text with links. -/
theorem MappedText.Closed.linked {Q : MappedText CodeData → Prop} (hQ : Closed Q) :
    LinkedText.Closed fun t => Q t.body where
  plain := hQ.plain
  concat := by
    intro ts h
    refine hQ.concat _ ?_
    intro body hbody
    obtain ⟨t, ht, rfl⟩ := List.mem_map.1 hbody
    exact h t ht
  relabel := by
    intro t u ht hbody
    rw [hbody]
    exact ht

theorem LinkedText.Joined.empty {Q : LinkedText → Prop} (hQ : LinkedText.Joined Q) : Q {} := hQ.plain ""

namespace LinkedText.Closed

variable {Q : LinkedText → Prop} (hQ : LinkedText.Closed Q)
include hQ

theorem mark {t : LinkedText} (h : Q t) : Q t.mark := hQ.relabel h rfl

end LinkedText.Closed

end ComponentLens
