import PhpIndex.Proofs.Record.NormalForm

/-!
# Records are read back

Every record that fits is read back as its normal form, from the layout of its kind field by
field. The normal form of a record that was read once is the record itself, up to the names of
built-in types.
Main statements: `ofRecord_symbol`, `ofRecord_reference`, `ofRecord_variableScope`,
`ofRecord_document` and `ofRecord_completion`.
-/
namespace PhpIndex
open Reader

section Fields

theorem takes_optionalText {o : Option String} (h : FitsOption FitsText o) :
    Takes (optional text) (Write.optional Write.text o) o := by
  have := takes_optional (f := id) fun s hs => takes_text (h s hs)
  rwa [Option.map_id] at this

theorem takes_fittingTexts {items : List String} (h : FitsList FitsText items) :
    Takes texts (Write.texts items) items := takes_texts h.1 h.2

theorem takes_optionalRange (o : Option Range) :
    Takes (optional range) (Write.optional Write.range o) o := by
  have := takes_optional (f := id) (o := o) fun r _ => takes_range r
  rwa [Option.map_id] at this

theorem takes_optionalTypes {o : Option TypeUnion} (h : FitsOption TypeUnion.Fits o) :
    Takes (optional types) (Write.optional Write.types o) (o.map TypeUnion.normal) :=
  takes_optional fun u hu => takes_types (h u hu)

theorem takes_ranges {items : List Range} (h : items.length < UInt32.size) :
    Takes (list 8 range) (Write.list Write.range items) items := by
  have hlength (r : Range) : 8 ≤ (Write.range r).length := Nat.le_refl 8
  have := takes_list (f := id) h (fun r _ => hlength r) fun r _ => takes_range r
  rwa [List.map_id] at this

theorem takes_textMap {m : OrderedMap String String} (h : FitsMap FitsText FitsText m) :
    Takes (map text text) (Write.map Write.text Write.text m) m := by
  have hleast (k v : String) : 8 ≤ (Write.text k ++ Write.text v).length := by
    have := length_text k
    have := length_text v
    rw [List.length_append]
    omega
  have := takes_map id h (fun _ hk => takes_text hk) (fun _ hv => takes_text hv) hleast
  have hid : m.mapValues id = m := OrderedMap.ext_entries (List.map_id m.entries)
  rwa [hid] at this

theorem takes_typesMap {m : OrderedMap String TypeUnion}
    (h : FitsMap FitsText TypeUnion.Fits m) :
    Takes (map text types) (Write.map Write.text Write.types m) (m.mapValues TypeUnion.normal) :=
  takes_map TypeUnion.normal h (fun _ hk => takes_text hk)
      (fun _ hv => takes_types hv) fun k v => by
    have := length_text k
    have := length_types v
    rw [List.length_append]
    omega

end Fields

section Declarations

theorem length_parameter (p : Parameter) : 4 ≤ (RecordFormat.write p : Bytes).length := by
  have := length_text p.name
  simp only [RecordFormat.write, List.length_append]
  omega

theorem takes_parameter {p : Parameter} (h : p.Fits) :
    Takes RecordFormat.read (RecordFormat.write p) p.normal := by
  obtain ⟨hname, htypes, hdefault, hlocation⟩ := h
  simp only [RecordFormat.write, List.append_assoc]
  refine (takes_text hname).bind ?_
  refine (takes_types htypes).bind ?_
  refine (takes_optionalText hdefault).bind ?_
  refine (takes_bool _).bind ?_
  refine (takes_bool _).bind ?_
  exact (takes_location hlocation).last

theorem takes_signature {s : Signature} (h : s.Fits) :
    Takes RecordFormat.read (RecordFormat.write s) s.normal := by
  have hparameters := takes_list (f := Parameter.normal) h.1.1 (fun p _ => length_parameter p)
    fun p hp => takes_parameter (h.1.2 p hp)
  refine hparameters.bind ?_
  exact (takes_types h.2).last

theorem takes_classDecl {c : ClassDecl} (h : c.Fits) :
    Takes (classDecl c.sort) c.write c.normal := by
  obtain ⟨hname, hlocation, hparents, hinterfaces, htraits, hdescription⟩ := h
  simp only [ClassDecl.write, List.append_assoc]
  refine (takes_text hname).bind ?_
  refine (takes_location hlocation).bind ?_
  refine (takes_modifiers _).bind ?_
  refine (takes_visibility {}).bind ?_
  refine (takes_fittingTexts hparents).bind ?_
  refine (takes_fittingTexts hinterfaces).bind ?_
  refine (takes_fittingTexts htraits).bind ?_
  exact (takes_optionalText hdescription).last

theorem takes_functionDecl {f : FunctionDecl} (h : f.Fits) :
    Takes functionDecl f.write f.normal := by
  obtain ⟨hname, hlocation, hsignature, hdescription⟩ := h
  simp only [FunctionDecl.write, List.append_assoc]
  refine (takes_text hname).bind ?_
  refine (takes_location hlocation).bind ?_
  refine (takes_signature hsignature).bind ?_
  exact (takes_optionalText hdescription).last

theorem takes_methodDecl {m : MethodDecl} (h : m.Fits) :
    Takes methodDecl m.write m.normal := by
  obtain ⟨hname, hscope, hlocation, hsignature, hdescription⟩ := h
  simp only [MethodDecl.write, List.append_assoc]
  refine (takes_text hname).bind ?_
  refine (takes_text hscope).bind ?_
  refine (takes_location hlocation).bind ?_
  refine (takes_modifiers _).bind ?_
  refine (takes_visibility _).bind ?_
  refine (takes_signature hsignature).bind ?_
  exact (takes_optionalText hdescription).last

theorem takes_propertyDecl {p : PropertyDecl} (h : p.Fits) :
    Takes propertyDecl p.write p.normal := by
  obtain ⟨hname, hscope, hlocation, htypes, hdescription⟩ := h
  simp only [PropertyDecl.write, List.append_assoc]
  refine (takes_text hname).bind ?_
  refine (takes_text hscope).bind ?_
  refine (takes_location hlocation).bind ?_
  refine (takes_modifiers _).bind ?_
  refine (takes_visibility _).bind ?_
  refine (takes_types htypes).bind ?_
  exact (takes_optionalText hdescription).last

theorem takes_constantDecl {c : ConstantDecl} (h : c.Fits) :
    Takes (constantDecl c.viaDefine) c.write c.normal := by
  obtain ⟨hname, hlocation, hvalue, htypes, hdescription⟩ := h
  simp only [ConstantDecl.write, List.append_assoc]
  refine (takes_text hname).bind ?_
  refine (takes_location hlocation).bind ?_
  refine (takes_optionalText hvalue).bind ?_
  refine (takes_types htypes).bind ?_
  exact (takes_optionalText hdescription).last

theorem takes_classConstantDecl {c : ClassConstantDecl} (h : c.Fits) :
    Takes classConstantDecl c.write c.normal := by
  obtain ⟨hname, hscope, hlocation, hvalue, htypes, hdescription⟩ := h
  simp only [ClassConstantDecl.write, List.append_assoc]
  refine (takes_text hname).bind ?_
  refine (takes_text hscope).bind ?_
  refine (takes_location hlocation).bind ?_
  refine (takes_modifiers {}).bind ?_
  refine (takes_visibility _).bind ?_
  refine (takes_optionalText hvalue).bind ?_
  refine (takes_types htypes).bind ?_
  exact (takes_optionalText hdescription).last

theorem takes_variableDecl {v : VariableDecl} (h : v.Fits) :
    Takes variableDecl v.write v.normal := by
  obtain ⟨hname, hlocation, htypes⟩ := h
  simp only [VariableDecl.write, List.append_assoc]
  refine (takes_text hname).bind ?_
  refine (takes_location hlocation).bind ?_
  exact (takes_types htypes).last

/-- A symbol is read by the reader that its tag asks for. -/
theorem takes_symbol {s : Symbol} (h : s.Fits) :
    Takes RecordFormat.read (RecordFormat.write s) s.normal := by
  cases s with
  | classLike c =>
    refine (takes_word _).bind ?_
    obtain ⟨sort, name⟩ := c
    cases sort <;> exact (takes_classDecl h).map Symbol.classLike
  | function f => exact (takes_word _).bind ((takes_functionDecl h).map Symbol.function)
  | method m => exact (takes_word _).bind ((takes_methodDecl h).map Symbol.method)
  | property p => exact (takes_word _).bind ((takes_propertyDecl h).map Symbol.property)
  | constant c =>
    refine (takes_word _).bind ?_
    obtain ⟨viaDefine, name⟩ := c
    cases viaDefine <;> exact (takes_constantDecl h).map Symbol.constant
  | classConstant c =>
    exact (takes_word _).bind ((takes_classConstantDecl h).map Symbol.classConstant)
  | «variable» v => exact (takes_word _).bind ((takes_variableDecl h).map Symbol.variable)

theorem ofRecord_symbol {s : Symbol} (h : s.Fits) : ofRecord (toRecord s) = .ok s.normal :=
  ofRecord_toRecord (takes_symbol h)

end Declarations

section Documents

theorem takes_reference {r : Reference} (h : r.Fits) :
    Takes RecordFormat.read (RecordFormat.write r) r.normal := by
  obtain ⟨htypes, hlocation, hscope, harguments⟩ := h
  simp only [RecordFormat.write, List.append_assoc]
  refine (takes_tag _).bind ?_
  refine (takes_word _).bind ?_
  rw [ReferenceKind.ofCode?_code]
  refine (takes_types htypes).bind ?_
  refine (takes_location hlocation).bind ?_
  refine (takes_optionalTypes hscope).bind ?_
  refine (takes_optionalRange _).bind ?_
  refine (takes_optionalRange _).bind ?_
  exact (takes_ranges harguments).last

theorem ofRecord_reference {r : Reference} (h : r.Fits) : ofRecord (toRecord r) = .ok r.normal :=
  ofRecord_toRecord (takes_reference h)

theorem takes_variableScope {s : VariableScope} (h : s.Fits) :
    Takes RecordFormat.read (RecordFormat.write s) s.normal := by
  simp only [RecordFormat.write, List.append_assoc]
  refine (takes_tag _).bind ?_
  refine (takes_location h.1).bind ?_
  exact (takes_typesMap h.2).last

theorem ofRecord_variableScope {s : VariableScope} (h : s.Fits) :
    ofRecord (toRecord s) = .ok s.normal := ofRecord_toRecord (takes_variableScope h)

theorem takes_imports {t : Imports} (h : t.Fits) :
    Takes RecordFormat.read (RecordFormat.write t) t := by
  obtain ⟨hsegments, hclasses, hfunctions, hconstants⟩ := h
  simp only [RecordFormat.write, List.append_assoc]
  refine (takes_tag _).bind ?_
  refine (takes_fittingTexts hsegments).bind ?_
  refine (takes_textMap hclasses).bind ?_
  refine (takes_textMap hfunctions).bind ?_
  exact (takes_textMap hconstants).last

theorem takes_document {d : DocumentRecord} (h : d.Fits) :
    Takes RecordFormat.read (RecordFormat.write d) d.normal := by
  obtain ⟨huri, hhash, himports, hglobals⟩ := h
  have hwrite : (RecordFormat.write d : Bytes) = Write.word Tag.document ++ (Write.text d.uri ++
      (Write.time d.modified ++ (Write.text d.contentHash ++ (Write.time d.indexedAt ++
        (RecordFormat.write d.imports ++ RecordFormat.write d.globals))))) := by
    simp only [← List.append_assoc]
    rfl
  rw [hwrite]
  refine (takes_tag _).bind ?_
  refine (takes_text huri).bind ?_
  refine (takes_time _).bind ?_
  refine (takes_text hhash).bind ?_
  refine (takes_time _).bind ?_
  refine (takes_imports himports).bind ?_
  exact (takes_variableScope hglobals).last

theorem ofRecord_document {d : DocumentRecord} (h : d.Fits) :
    ofRecord (toRecord d) = .ok d.normal := ofRecord_toRecord (takes_document h)

theorem takes_completion {e : CompletionEntry} (huri : FitsText e.uri) (hname : FitsText e.name) :
    Takes RecordFormat.read (RecordFormat.write e) e := by
  simp only [RecordFormat.write, List.append_assoc]
  refine (takes_tag _).bind ?_
  refine (takes_text huri).bind ?_
  exact (takes_text hname).last

theorem ofRecord_completion {e : CompletionEntry} (huri : FitsText e.uri)
    (hname : FitsText e.name) : ofRecord (toRecord e) = .ok e :=
  ofRecord_toRecord (takes_completion huri hname)

end Documents
end PhpIndex
