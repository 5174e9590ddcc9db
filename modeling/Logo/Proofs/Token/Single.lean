import Logo.Proofs.Grammar.Derivation
import Logo.Proofs.Token.Standing

/-!
# Texts of one token

The text of a token is scanned as that token and nothing else, wherever the token was found
(`sourceTokens_of_mem`).  For names this says what they look like: `IsName` is about characters and
the list of keywords alone, and the texts of name tokens are the texts of this form
(`sourceTokens_eq_name_iff`).
-/

namespace Logo

open Lexeme

/-! ## Tokens by themselves -/

/-- A token that stands by itself is the only one of its text, and conversely. -/
theorem sourceTokens_eq_singleton_iff {t : Token} :
    sourceTokens t.text = [t] ↔ Stands Vocabulary.keywords t := by
  have hplain := TokenStream.plain_ofString Vocabulary.keywords t.text
  constructor
  · intro h
    have hmem : t ∈ sourceTokens t.text := h ▸ List.mem_singleton_self t
    obtain ⟨x, hx, rfl⟩ := List.mem_map.1 hmem
    exact TokenStream.stands_of_mem_ahead hplain x hx
  · intro h
    have hsplit : split? Vocabulary.keywords t.text.toList = some (t, []) := by
      simpa using h [] (by simp [Halts])
    exact TokenStream.remaining_of_scanned hplain (.token hsplit (.done rfl)) rfl rfl

/-- The text of every token of a source is that token by itself. -/
theorem sourceTokens_of_mem {source : String} {t : Token} (h : t ∈ sourceTokens source) :
    sourceTokens t.text = [t] := by
  obtain ⟨x, hx, rfl⟩ := List.mem_map.1 h
  have hplain := TokenStream.plain_ofString Vocabulary.keywords source
  exact sourceTokens_eq_singleton_iff.2 (TokenStream.stands_of_mem_ahead hplain x hx)

/-! ## Names -/

/-- Whether a text is an identifier, as far as its characters tell. -/
def IsIdentifier : List Char → Prop
  | [] => False
  | c :: rest => isNameStart c = true ∧ ∀ d ∈ rest, isNameChar d = true

instance (text : List Char) : Decidable (IsIdentifier text) :=
  match text with
  | [] => inferInstanceAs (Decidable False)
  | c :: rest => decidable_of_iff (isNameStart c = true ∧ rest.all isNameChar = true)
    (and_congr_right' List.all_eq_true)

/-- The texts that a script may choose as names: the identifiers that are no keywords. -/
def IsName (text : String) : Prop := IsIdentifier text.toList ∧ text ∉ Vocabulary.keywords

instance (text : String) : Decidable (IsName text) := inferInstanceAs (Decidable (_ ∧ _))

section Names

variable {c : Char} {text rest : List Char}

/-- A name is split off as the longest identifier at the front, if that is no keyword. -/
lemma isIdentifier_of_splitToken {keywords : List String} {name : String}
    (h : splitToken keywords c rest = (⟨.name, name⟩, [])) :
    IsIdentifier (c :: rest) ∧ name = String.ofList (c :: rest) ∧ name ∉ keywords := by
  unfold splitToken at h
  split at h
  · cases h
  · split at h
    · rename_i hstart
      rw [Prod.mk.injEq] at h
      obtain ⟨htoken, hnone⟩ := h
      have hall : ∀ d ∈ rest, isNameChar d = true := by simpa using hnone
      have htake : rest.takeWhile isNameChar = rest := List.takeWhile_eq_self_iff.2 hall
      rw [htake, nameToken] at htoken
      split at htoken
      · cases htoken
      · rename_i hkeyword
        cases htoken
        exact ⟨⟨hstart, hall⟩, rfl, hkeyword⟩
    · split at h
      · have hkind := kind_splitNumber (c :: rest)
        simp [h] at hkind
      · cases h

/-- An identifier begins with neither a blank nor a line end. -/
lemma ne_of_isNameStart (h : isNameStart c = true) : isBlank c = false ∧ c ≠ '\n' := by
  constructor
  · cases hblank : isBlank c with
    | false => rfl
    | true =>
      have hc : c = ' ' ∨ c = '\t' := by simpa [isBlank] using hblank
      rcases hc with rfl | rfl <;> exact absurd h (by decide)
  · rintro rfl
    exact absurd h (by decide)

/-- The texts that are scanned as one name are those that have the form of one. -/
theorem sourceTokens_eq_name_iff {name : String} :
    sourceTokens name = [⟨.name, name⟩] ↔ IsName name := by
  have hiff : sourceTokens name = [⟨.name, name⟩] ↔ Stands Vocabulary.keywords ⟨.name, name⟩ :=
    sourceTokens_eq_singleton_iff (t := ⟨.name, name⟩)
  rw [hiff]
  constructor
  · intro h
    have hsplit : split? Vocabulary.keywords name.toList = some (⟨.name, name⟩, []) := by
      simpa using h [] (by simp [Halts])
    obtain ⟨c, rest, -, htoken⟩ := split?_eq_some_iff.1 hsplit
    obtain ⟨hidentifier, hname, hkeyword⟩ := isIdentifier_of_splitToken htoken
    refine ⟨?_, hkeyword⟩
    rwa [hname, String.toList_ofList]
  · rintro ⟨hidentifier, hkeyword⟩
    cases htext : name.toList with
    | nil => simp [htext, IsIdentifier] at hidentifier
    | cons c rest =>
      rw [htext] at hidentifier
      obtain ⟨hstart, hall⟩ := hidentifier
      obtain ⟨hblank, hline⟩ := ne_of_isNameStart hstart
      have htake : rest.takeWhile isNameChar = rest := List.takeWhile_eq_self_iff.2 hall
      have hname : String.ofList (c :: rest) = name := by rw [← htext, String.ofList_toList]
      have hstands : Stands Vocabulary.keywords
          (nameToken Vocabulary.keywords (String.ofList (c :: rest.takeWhile isNameChar))) :=
        stands_name hstart hblank hline
      rwa [htake, hname, nameToken, if_neg hkeyword] at hstands

end Names

/-- The words that stand at nodes of their own are names like any other; those of the language are
not. -/
example : (∀ word ∈ ["program", "block", "list", "header", "_x$1"], IsName word) ∧
    ∀ word ∈ ["forward", "getX", "1x", "x-y", ""], ¬ IsName word := by
  decide

end Logo
