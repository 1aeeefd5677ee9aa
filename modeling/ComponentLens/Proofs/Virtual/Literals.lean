/-
# Literals in generated code

The body of a template document holds two kinds of literal made of text of the template: values of attributes
as template literals, and names in single quotes.  A value has its backquotes escaped and nothing else, and a
name is taken as it is.  So a literal is one token exactly if this text is one that such a literal can hold
(`literals_isToken_iff`).  A value without backslashes and without `$` in front of a brace always is, and so
is a name without quotes, backslashes and line breaks; a value that is a backslash is not, and the document
that it is written into is no code (`not_isToken_backslash`).
-/
import ComponentLens.Markup.Parse
import ComponentLens.Virtual.TemplateBody
import ComponentLens.Proofs.Script.Literals

namespace ComponentLens.Virtual

open Markup Script

/-! ## 1. Text without marks -/

/-- The text with every backquote escaped. -/
def escapeBackquotes (cs : List Char) : List Char :=
  cs.flatMap fun c => if c == '`' then ['\\', '`'] else [c]

theorem attributeLiteral_value (a : Attribute) (value : AttrValue) :
    attributeLiteral { a with value := some value } =
      String.ofList ('`' :: (escapeBackquotes value.content.toList ++ ['`'])) := rfl

theorem NameUse.quoted_text (use : NameUse) :
    use.quoted.text = String.ofList ('\'' :: (use.name.toList ++ ['\''])) := by
  rw [← String.toList_inj, String.toList_ofList]
  simp [NameUse.quoted, MappedText.concat, MappedText.ahead, MappedText.plain, NameUse.bare, MappedText.mapped,
    String.join]

/-- A text that neither escapes nor opens a substitution can stand in a template literal once its backquotes
are escaped. -/
theorem layerText_escapeBackquotes {cs : List Char} (hslash : '\\' ∉ cs) (hopen : ¬ ['$', '{'] <:+: cs) :
    LayerText .own (escapeBackquotes cs) := by
  induction cs with
  | nil => exact .nil
  | cons c cs ih =>
    rw [List.mem_cons, not_or] at hslash
    rw [List.infix_cons_iff, not_or] at hopen
    have hcs := ih hslash.2 hopen.2
    by_cases hquote : c = '`'
    · subst hquote
      exact .escape hcs
    · have hescape : escapeBackquotes (c :: cs) = c :: escapeBackquotes cs := by
        simp [escapeBackquotes, hquote]
      rw [hescape]
      refine .plain hquote (Ne.symm hslash.1) ?_ hcs
      rintro ⟨rest, heq⟩
      obtain ⟨rfl, hrest⟩ := List.cons.inj heq
      -- an escaped text starts with a brace only if the text itself does
      cases cs with
      | nil => cases hrest
      | cons d cs =>
        by_cases hd : d = '`'
        · subst hd
          exact absurd (List.cons.inj hrest).1 (by decide)
        · have hbrace : escapeBackquotes (d :: cs) = d :: escapeBackquotes cs := by
            simp [escapeBackquotes, hd]
          rw [hbrace] at hrest
          obtain rfl := (List.cons.inj hrest).1
          exact hopen.1 ⟨cs, rfl⟩

/-- A text without backslashes can stand in a string exactly if it holds neither the quote nor a line
break. -/
theorem stringText_iff_of_plain {quote : Char} {cs : List Char} (hslash : '\\' ∉ cs) :
    StringText quote cs ↔ quote ∉ cs ∧ '\n' ∉ cs := by
  induction cs with
  | nil => exact ⟨fun _ => ⟨List.not_mem_nil, List.not_mem_nil⟩, fun _ => .nil⟩
  | cons c cs ih =>
    rw [List.mem_cons, not_or] at hslash
    constructor
    · intro h
      cases h with
      | plain hc _ hbreak hcs =>
        obtain ⟨hquotes, hbreaks⟩ := (ih hslash.2).1 hcs
        exact ⟨List.not_mem_cons_of_ne_of_not_mem (Ne.symm hc) hquotes,
          List.not_mem_cons_of_ne_of_not_mem (Ne.symm hbreak) hbreaks⟩
      | escape => exact absurd rfl hslash.1
    · rintro ⟨hquotes, hbreaks⟩
      rw [List.mem_cons, not_or] at hquotes hbreaks
      exact .plain (Ne.symm hquotes.1) (Ne.symm hslash.1) (Ne.symm hbreaks.1)
        ((ih hslash.2).2 ⟨hquotes.2, hbreaks.2⟩)

/-! ## 2. Literals of a template -/

/-- **Literals** made of text of the template.  The literal of an attribute value is one token exactly if a
template literal can hold the value with its backquotes escaped, and a name in quotes exactly if a string can
hold the name. -/
theorem literals_isToken_iff (a : Attribute) (value : AttrValue) (use : NameUse) :
    (IsToken .template (attributeLiteral { a with value := some value }) ↔
      LayerText .own (escapeBackquotes value.content.toList)) ∧
    (IsToken .string use.quoted.text ↔ StringText '\'' use.name.toList) := by
  rw [attributeLiteral_value, NameUse.quoted_text]
  exact ⟨isToken_template_iff _, isToken_string_iff (.inr rfl) _⟩

/-- The literal of a value without backslashes and substitutions is one token. -/
theorem isToken_attributeLiteral (a : Attribute) {value : AttrValue} (hslash : '\\' ∉ value.content.toList)
    (hopen : ¬ ['$', '{'] <:+: value.content.toList) :
    IsToken .template (attributeLiteral { a with value := some value }) := by
  rw [attributeLiteral_value, isToken_template_iff]
  exact layerText_escapeBackquotes hslash hopen

/-- A name without backslashes is one token in quotes exactly if it holds neither a quote nor a line break. -/
theorem NameUse.isToken_quoted_iff {use : NameUse} (hslash : '\\' ∉ use.name.toList) :
    IsToken .string use.quoted.text ↔ '\'' ∉ use.name.toList ∧ '\n' ∉ use.name.toList := by
  rw [NameUse.quoted_text, isToken_string_iff (.inr rfl), stringText_iff_of_plain hslash]

/-- A template with one element, which has a backslash for the value of an attribute. -/
def backslashTemplate : String := "<p title=\"\\\"/>"

/-- The backslash takes the closing backquote of its literal with it, and the document never closes it. -/
theorem not_isToken_backslash :
    ∃ a, (nodeTags (parse backslashTemplate).nodes).flatMap (·.attributes) = [a] ∧
      attributeLiteral a = "`\\`" ∧ ¬ IsToken .template (attributeLiteral a) ∧
      (tokenize (templateBody ⟨[], [], false⟩ (parse backslashTemplate).nodes).text).toOption = none := by
  refine ⟨⟨"title", ⟨3, 8⟩, some ⟨"\\", ⟨10, 11⟩, ⟨9, 12⟩⟩, ⟨3, 12⟩⟩, ?_, ?_, ?_, ?_⟩
  · decide +kernel
  · decide +kernel
  · intro h
    cases (isToken_template_iff ['\\']).1 h with
    | plain _ hslash => exact hslash rfl
  · decide +kernel

end ComponentLens.Virtual
