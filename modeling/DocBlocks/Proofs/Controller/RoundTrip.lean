import DocBlocks.Proofs.Controller.Numbers
import DocBlocks.Proofs.Format.Json.Decode
import DocBlocks.Proofs.Format.Yaml.Stream

/-!
# Descriptions are read back

`read_write_extractText`: what is written for the description of a class is read as that
description. In YAML this takes nothing: the numbers in a source are canonical, the names of fields
are plain and short, and any text has a style that reads back as itself. In JSON it takes numbers
that JSON keeps, and it keeps those with few digits and a small scale.
-/

namespace DocBlocks

namespace ClassDescriptor

theorem Fits.mono {keeps keeps' : Binary64 → Prop} {c : ClassDescriptor} (h : c.Fits keeps)
    (hkeeps : ∀ x, .float x ∈ c.arguments → keeps x → keeps' x) : c.Fits keeps' := by
  refine ⟨fun a ha => ?_, h.lines⟩
  cases a with
  | float x => exact hkeeps x ha (h.arguments _ ha)
  | integer i => exact h.arguments _ ha
  | _ => trivial

theorem Fits.located {keeps : Binary64 → Prop} {c : ClassDescriptor} (h : c.Fits keeps)
    (path : Option String) : Fits keeps { c with path := path } :=
  ⟨h.arguments, h.lines⟩

/-- Whether a description is what is read of the texts that are written for it: of the YAML text
always, of the JSON text unless JSON loses a number of more than a few digits. -/
structure ReadBack (c : ClassDescriptor) : Prop where
  json : (∃ x, .float x ∈ c.arguments ∧ ¬Json.Read.IsShort x ∧ ¬Json.Read.Keeps x) ∨
    Json.read .classDescriptor (Json.write c.toData) = .ok c.filled
  yaml : Yaml.read .classDescriptor (Yaml.write c.toData) = .ok c.filled
  /-- The data that are read are the description. -/
  ofData?_eq : ofData? c.filled = some c

/-- JSON keeps the numbers of a description, unless one that is not short is lost. -/
theorem Fits.keeps {c : ClassDescriptor} (h : c.Fits Binary64.Canonical)
    (hlong : ∀ x, .float x ∈ c.arguments → ¬Json.Read.IsShort x → Json.Read.Keeps x) :
    c.Fits Json.Read.Keeps := by
  refine h.mono fun x hx hcanonical => ?_
  by_cases hshort : Json.Read.IsShort x
  · exact Json.Read.keeps_of_isShort hcanonical hshort
  · exact hlong x hx hshort

theorem Fits.readBack {c : ClassDescriptor} (h : c.Fits Binary64.Canonical) : c.ReadBack where
  json := by
    by_cases hlong : ∀ x, .float x ∈ c.arguments → ¬Json.Read.IsShort x → Json.Read.Keeps x
    · exact .inr (Json.read_write_toData (h.keeps hlong))
    · push Not at hlong
      exact .inl hlong
  yaml := Yaml.read_write_toData h
  ofData?_eq := ofData?_filled c

end ClassDescriptor

/-- **Descriptions are read back**: the description of a class, with any path, is the one that is
read of the YAML text that is written for it, and of the JSON text too unless JSON loses a number
that is not short. -/
theorem read_write_extractText (source : String) (path : Option String) :
    (∀ (g : GrammarReader) (c : ClassDescriptor), source.length < 2 ^ 63 →
      extractTextWith g.read source = .ok c →
        ClassDescriptor.ReadBack { c with path := path }) ∧
      (2 ^ 63 ≤ source.length ∨ (∃ e, extractText source = .error e) ∨
        ∃ c, extractText source = .ok c ∧ ClassDescriptor.ReadBack { c with path := path }) := by
  have hall : ∀ (g : GrammarReader) (c : ClassDescriptor), source.length < 2 ^ 63 →
      extractTextWith g.read source = .ok c → ClassDescriptor.ReadBack { c with path := path } := by
    intro g c hlength hc
    exact ((g.fits_of_extractTextWith hlength hc).located path).readBack
  refine ⟨hall, ?_⟩
  rcases Nat.lt_or_ge source.length (2 ^ 63) with hlength | hlength
  · exact .inr (error_or_exists fun c hc => hall grammarReader c hlength hc)
  · exact .inl hlength

/-- A description with the number 1.5 is read back in both formats. -/
theorem read_write_extractText_sample :
    ∃ c, extractTextWith sampleGrammarReader.read (sampleProgram "") = .ok c ∧
      (∀ a ∈ c.arguments, a = .float (.finite false (3 * 2 ^ 51) 1022)) ∧
      Json.read .classDescriptor (Json.write { c with path := some "A.php" }.toData) =
        .ok { c with path := some "A.php" }.filled ∧
      Yaml.read .classDescriptor (Yaml.write { c with path := some "A.php" }.toData) =
        .ok { c with path := some "A.php" }.filled ∧
      ClassDescriptor.ofData? { c with path := some "A.php" }.filled =
        some { c with path := some "A.php" } := by
  obtain ⟨c, hc, -⟩ := exists_extractTextWith_sampleProgram
  obtain ⟨root, hroot, hclass⟩ := extractTextWith_eq_ok.1 hc
  obtain rfl : sampleProgramTree = root := Except.ok.inj (parseWith_sampleProgram.symm.trans hroot)
  have hvalues : ∀ d ∈ sampleProgramTree.descendants, d.kind = .argument →
      argumentValue d = .float (.finite false (3 * 2 ^ 51) 1022) := by
    decide +kernel
  have harguments : ∀ a ∈ c.arguments, a = .float (.finite false (3 * 2 ^ 51) 1022) := by
    intro a ha
    obtain ⟨d, hd, hkind, rfl⟩ := exists_argument_of_describeClass hclass a ha
    exact hvalues d hd hkind
  have hback := (read_write_extractText _ (some "A.php")).1 sampleGrammarReader c (by decide) hc
  refine ⟨c, hc, harguments, hback.json.resolve_left ?_, hback.yaml, hback.ofData?_eq⟩
  rintro ⟨x, hx, hlong, -⟩
  obtain rfl : x = .finite false (3 * 2 ^ 51) 1022 := ArgumentValue.float.inj (harguments _ hx)
  exact hlong (by decide +kernel)

end DocBlocks
