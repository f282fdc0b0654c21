import PhpIndex.Proofs.Extract.Disciplined
import PhpIndex.Proofs.Name.BareWord

/-!
# Words for the class around

The words `self` and `static` stand for the class around the place where they are written, so they
are replaced there. A word that is left would be taken for another class where its value is used:
what a function outside of any class is documented to return is not touched until a method returns
its result. If the words only stand where they are replaced, none of them is left.
Main statements: `self_words_replaced`, `self_word_left`.
-/
namespace PhpIndex

namespace Extract

/-- No name of a type is a word for the class around, and such words stand only where they are
replaced. -/
def replacing : Discipline where
  type t := Plain t.name
  used _ := True
  owner := Plain
  spelled replaced text :=
    decide (Plain text) || replaced && decide (Text.lowerAscii (Text.trimBlank text) ∈ selfWords)
  keyword text := decide (Plain (TypeName.ofSource text).name)
  documented replaced t := decide (Plain t.name) || replaced && decide (t.name ∈ selfWords)
  accessed _ := true

namespace State
variable {s : State}

/-- Inside a named class the words are replaced by its name. -/
theorem resolveClass_of_selfWord {raw owner : String}
    (hword : Text.lowerAscii (Text.trimBlank raw) ∈ selfWords)
    (howner : s.memberScope? = some owner) : s.resolveClass raw = .ofAbsolute owner := by
  have hrelative : ∀ word ∈ selfWords, word ∈ ["self", "static", "parent"] ∧ word ≠ "parent" := by
    decide
  obtain ⟨hmem, hparent⟩ := hrelative _ hword
  have hclass : s.relativeClass? (Text.lowerAscii (Text.trimBlank raw)) = some owner := by
    unfold memberScope? at howner
    unfold relativeClass?
    cases hclasses : s.classes with
    | nil =>
      rw [hclasses] at howner
      cases howner
    | cons c outer =>
      rw [hclasses] at howner
      simp only [Option.ite_none_left_eq_some, Bool.or_eq_true, not_or] at howner
      simp only
      rw [if_neg hparent, if_neg howner.1.2]
      exact howner.2
  unfold resolveClass
  simp only
  rw [if_pos hmem, hclass]

theorem resolveType_of_selfWord {t : TypeName} {owner : String} (hword : t.name ∈ selfWords)
    (howner : s.memberScope? = some owner) : s.resolveType t = .ofAbsolute owner := by
  have hwords : ∀ word ∈ selfWords, Text.startsWith "$" word = false ∧ isRelative word = true ∧
      Text.lowerAscii (Text.trimBlank word) ∈ selfWords := by decide
  obtain ⟨hvariable, hrelative, hlower⟩ := hwords _ hword
  have hkept : (t.isVariable || t.absolute && !isRelative t.name) = false := by
    simp [TypeName.isVariable, hvariable, hrelative]
  unfold resolveType
  rw [if_neg (Bool.eq_false_iff.1 hkept), resolveClass_of_selfWord hlower howner]

theorem Typed.relativeClass? {D : Discipline} (h : s.Typed D) {word name : String}
    (hname : s.relativeClass? word = some name) : D.owner name := by
  unfold State.relativeClass? at hname
  cases hclasses : s.classes with
  | nil =>
    rw [hclasses] at hname
    cases hname
  | cons c outer =>
    rw [hclasses] at hname
    have hc : c ∈ s.classes := hclasses ▸ List.mem_cons_self
    simp only at hname
    split at hname
    · exact h.parents c hc name hname
    · simp only [Option.ite_none_left_eq_some, Bool.not_eq_true, Option.some.injEq] at hname
      exact hname.2 ▸ h.names c hc hname.1

theorem plain_resolveClass (h : s.Typed replacing) {raw : String} (hraw : Plain raw) :
    Plain (s.resolveClass raw).name := by
  have htrim := hraw.trimBlank
  unfold resolveClass
  simp only
  split
  · split
    next name hname => exact (h.relativeClass? hname).ofAbsolute
    · exact htrim.ofSource
  · unfold TypeName.resolve TypeName.resolveAs
    split
    · exact htrim.ofSource
    · have himports : ∀ known target, s.imports.classes.get? known = some target → Plain target :=
        h.imports
      dsimp only
      exact htrim.ofSource.absoluteName himports

theorem plain_resolveType (h : s.Typed replacing) {t : TypeName} (ht : Plain t.name) :
    Plain (s.resolveType t).name := by
  unfold resolveType
  split
  · exact ht
  · exact plain_resolveClass h ht

/-- What a name stands for does not depend on the class around if it is none of the words. -/
theorem resolveType_of_plain {s' : State} {t : TypeName} (h : Plain t.name)
    (hparent : Text.bareWord t.name ≠ "parent") (himports : s'.imports = s.imports) :
    s'.resolveType t = s.resolveType t := by
  have hletters : ∀ word ∈ ["self", "static", "parent"], (word ∈ selfWords ∨ word = "parent") ∧
      word.toList.all (fun c => !Text.isBlank c && c != '\\') = true := by decide
  have hword : Text.lowerAscii (Text.trimBlank t.name) ∉ ["self", "static", "parent"] := by
    intro hmem
    obtain ⟨hself, hplain⟩ := hletters _ hmem
    have hbare := Text.bareWord_of_lowerAscii rfl hplain
    rw [Text.bareWord_trimBlank] at hbare
    rw [← hbare] at hself
    exact hself.elim h hparent
  unfold resolveType
  split
  · rfl
  · unfold resolveClass
    simp only
    rw [if_neg hword, if_neg hword, himports]

end State

theorem plain_of_spelled {text : String} (h : replacing.spelled false text = true) :
    Plain text := by
  simp only [replacing, Bool.false_and, Bool.or_false, decide_eq_true_eq] at h
  exact h

theorem lawful_replacing : replacing.Lawful where
  inferred := by
    have hall : ∀ name ∈ inferredTypes, Plain (TypeName.ofSource name).name := by decide +kernel
    exact hall
  closure := by
    have hclosure : Plain (TypeName.ofAbsolute "Closure").name := by decide +kernel
    exact hclosure
  ofOwner name h := by
    simp only [replacing] at h ⊢
    exact h.ofAbsolute
  owner t h := by
    simp only [replacing] at h ⊢
    exact h
  used _ _ := trivial
  absolute _ := trivial
  accessed _ _ := trivial
  keyword text h := by
    simp only [replacing] at h ⊢
    exact of_decide_eq_true h
  className imports text h := by
    have hname := (plain_of_spelled h).namespaced imports
    simp only [replacing]
    exact hname
  target u c h := by
    have hname := (plain_of_spelled h).trimLead
    simp only [replacing]
    unfold UseStatement.target
    simp only
    split
    next lead _ => exact (hname.append _).trimLead
    · exact hname.trimLead
  resolveClass s replaced text hs hinside h := by
    simp only [replacing, Bool.or_eq_true, Bool.and_eq_true, decide_eq_true_eq] at h ⊢
    rcases h with h | ⟨hreplaced, hword⟩
    · exact State.plain_resolveClass hs h
    · obtain ⟨owner, howner⟩ := Option.isSome_iff_exists.1 (hinside hreplaced)
      have hplain : Plain owner := hs.owner howner
      rw [State.resolveClass_of_selfWord hword howner]
      exact hplain.ofAbsolute
  resolveType s t hs ht := by
    simp only [replacing] at ht ⊢
    exact State.plain_resolveType hs ht
  documented s t hs h := by
    simp only [replacing, Bool.or_eq_true, Bool.and_eq_true, decide_eq_true_eq] at h ⊢
    rcases h with h | ⟨hreplaced, hword⟩
    · exact State.plain_resolveType hs h
    · obtain ⟨owner, howner⟩ := Option.isSome_iff_exists.1 hreplaced
      have hplain : Plain owner := hs.owner howner
      rw [State.resolveType_of_selfWord hword howner]
      exact hplain.ofAbsolute

end Extract

/-- If `self` and `static` stand only where they are replaced then no declaration has them for the
name of a type, no variable is bound to them, and only the word `parent` is left to stand for
another class at the place of use. They are replaced by the name of the class around. -/
theorem self_words_replaced (uri source : String) {tree : SyntaxTree}
    (h : Extract.admits Extract.replacing ⟨none, none⟩ [] (.start uri source) tree = true) :
    let found := Extraction.ofTree uri source tree
    (∀ x ∈ found.symbols, ∀ t ∈ x.typeNames, t.name ∉ selfWords) ∧
    (∀ x ∈ found.globals :: found.scopes, x.All fun t => t.name ∉ selfWords) ∧
    (∀ x ∈ found.symbols, ∀ t ∈ x.typeNames, Text.bareWord t.name ≠ "parent" →
      ∀ s s' : Extract.State, s'.imports = s.imports → s'.resolveType t = s.resolveType t) ∧
    ∀ (s : Extract.State) owner, s.memberScope? = some owner →
      ∀ t : TypeName, t.name ∈ selfWords → s.resolveType t = .ofAbsolute owner := by
  intro found
  obtain ⟨-, hstate⟩ := Extract.yields_walk Extract.lawful_replacing tree ⟨none, none⟩ h
    (List.forall_mem_nil _) (Extract.State.typed_start uri source)
  have hsymbols : ∀ x ∈ found.symbols, ∀ t ∈ x.typeNames, Plain t.name := hstate.symbols
  have hglobals : found.globals.All fun t => Plain t.name := hstate.globals
  have hscopes : ∀ x ∈ found.scopes, x.All fun t => Plain t.name := hstate.finished
  refine ⟨fun x hx t ht => (hsymbols x hx t ht).not_mem, ?_, ?_, ?_⟩
  · intro x hx e he t ht
    exact (List.forall_mem_cons.2 ⟨hglobals, hscopes⟩ x hx e he t ht).not_mem
  · intro x hx t ht hparent s s' himports
    exact Extract.State.resolveType_of_plain (hsymbols x hx t ht) hparent himports
  · intro s owner howner t hword
    exact Extract.State.resolveType_of_selfWord hword howner

/-- The words are written in documentation and as the type that a method returns. -/
theorem self_words_replaced_method :
    let source := "<?php class A\x7b/** @param self $b */function m($b):static\x7b\x7d\x7d"
    let tree : SyntaxTree :=
      .node "program" none ⟨0, 59⟩
       [.node "php_tag" none ⟨0, 5⟩ [],
        .node "class_declaration" none ⟨6, 59⟩
         [.node "class" none ⟨6, 11⟩ [],
          .node "name" (some "name") ⟨12, 13⟩ [],
          .node "declaration_list" (some "body") ⟨13, 59⟩
           [.node "\x7b" none ⟨13, 14⟩ [],
            .node "comment" none ⟨14, 35⟩ [],
            .node "method_declaration" none ⟨35, 58⟩
             [.node "function" none ⟨35, 43⟩ [],
              .node "name" (some "name") ⟨44, 45⟩ [],
              .node "formal_parameters" (some "parameters") ⟨45, 49⟩
               [.node "(" none ⟨45, 46⟩ [],
                .node "simple_parameter" none ⟨46, 48⟩
                 [.node "variable_name" (some "name") ⟨46, 48⟩
                   [.node "$" none ⟨46, 47⟩ [],
                    .node "name" none ⟨47, 48⟩ []]],
                .node ")" none ⟨48, 49⟩ []],
              .node ":" none ⟨49, 50⟩ [],
              .node "named_type" (some "return_type") ⟨50, 56⟩
               [.node "name" none ⟨50, 56⟩ []],
              .node "compound_statement" (some "body") ⟨56, 58⟩
               [.node "\x7b" none ⟨56, 57⟩ [],
                .node "\x7d" none ⟨57, 58⟩ []]],
            .node "\x7d" none ⟨58, 59⟩ []]]]
    let found := Extraction.ofTree "a.php" source tree
    Extract.admits Extract.replacing ⟨none, none⟩ [] (.start "a.php" source) tree = true ∧
      found.symbols.map (fun x => (x.name, x.typeNames.map TypeName.name)) =
        [("m", ["A", "A"]), ("A", [])] ∧
      ∀ x ∈ found.symbols, ∀ t ∈ x.typeNames, t.name ∉ selfWords := by
  intro source tree found
  have hadmits : Extract.admits Extract.replacing ⟨none, none⟩ [] (.start "a.php" source) tree =
      true := by decide +kernel
  exact ⟨hadmits, by decide +kernel, (self_words_replaced "a.php" source hadmits).1⟩

/-- A function outside of any class is documented to return `static`. The word is left there, and
so it is in the types of a method of a class that returns what the function does. -/
theorem self_word_left :
    let source := "<?php /** @return static */ function f() \x7b\x7d " ++
      "class A \x7b function m() \x7b return f(); \x7d \x7d"
    let tree : SyntaxTree :=
      .node "program" none ⟨0, 84⟩
       [.node "php_tag" none ⟨0, 5⟩ [],
        .node "comment" none ⟨6, 27⟩ [],
        .node "function_definition" none ⟨28, 43⟩
         [.node "function" none ⟨28, 36⟩ [],
          .node "name" (some "name") ⟨37, 38⟩ [],
          .node "formal_parameters" (some "parameters") ⟨38, 40⟩
           [.node "(" none ⟨38, 39⟩ [],
            .node ")" none ⟨39, 40⟩ []],
          .node "compound_statement" (some "body") ⟨41, 43⟩
           [.node "\x7b" none ⟨41, 42⟩ [],
            .node "\x7d" none ⟨42, 43⟩ []]],
        .node "class_declaration" none ⟨44, 84⟩
         [.node "class" none ⟨44, 49⟩ [],
          .node "name" (some "name") ⟨50, 51⟩ [],
          .node "declaration_list" (some "body") ⟨52, 84⟩
           [.node "\x7b" none ⟨52, 53⟩ [],
            .node "method_declaration" none ⟨54, 82⟩
             [.node "function" none ⟨54, 62⟩ [],
              .node "name" (some "name") ⟨63, 64⟩ [],
              .node "formal_parameters" (some "parameters") ⟨64, 66⟩
               [.node "(" none ⟨64, 65⟩ [],
                .node ")" none ⟨65, 66⟩ []],
              .node "compound_statement" (some "body") ⟨67, 82⟩
               [.node "\x7b" none ⟨67, 68⟩ [],
                .node "return_statement" none ⟨69, 80⟩
                 [.node "return" none ⟨69, 75⟩ [],
                  .node "function_call_expression" none ⟨76, 79⟩
                   [.node "name" (some "function") ⟨76, 77⟩ [],
                    .node "arguments" (some "arguments") ⟨77, 79⟩
                     [.node "(" none ⟨77, 78⟩ [],
                      .node ")" none ⟨78, 79⟩ []]],
                  .node ";" none ⟨79, 80⟩ []],
                .node "\x7d" none ⟨81, 82⟩ []]],
            .node "\x7d" none ⟨83, 84⟩ []]]]
    (Extraction.ofTree "file:///test.php" source tree).symbols.map
        (fun x => (x.name, x.scope?, x.typeNames.map TypeName.name)) =
      [("f", none, ["static"]), ("m", some "A", ["static"]), ("A", none, [])] := by
  decide +kernel

end PhpIndex
