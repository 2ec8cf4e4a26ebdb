import Schematic.CommandLine.Run
import Schematic.Proofs.Payload.RoundTrip
import Schematic.Proofs.Store.Outcome

namespace Schematic.CommandLine

variable {payload kept : Payload} {env : Environment} {s : Settings} {text : String}

/-- What is written about a payload that is accepted and kept as `kept`. -/
def approval (format : OutputFormat) (kept : Payload) : String :=
  match format with
  | .json => kept.toJson.pretty ++ "\n"
  | .text => "✓ valid " ++ kept.kind.name ++ "\n" ++ (kept.toJson.pretty ++ "\n")

theorem validate_of_accept (format : OutputFormat)
    (h : Revision.acceptPayload payload = .ok kept) :
    validate format payload = .success (approval format kept) := by
  rw [validate, h]
  cases format <;> rfl

theorem approval_withoutResource (format : OutputFormat) (kept : Payload) :
    approval format kept.withoutResource = approval format kept := by
  unfold approval
  rw [kept.toJson_withoutResource, kept.kind_withoutResource]

theorem perform_validate {kind : ObjectKind} {input? : Option String}
    (hinput : inputText env input? = .ok text) (htext : Payload.ofText kind text = .ok payload) :
    perform env s (.validate kind.name input?) = validate s.format payload := by
  have hpayload : requestedPayload env kind.name input? = .ok payload := by
    rw [requestedPayload, ObjectKind.ofName?_name]
    exact bind_eq_ok_iff.mpr ⟨text, hinput, mapError_eq_ok_iff.mpr htext⟩
  unfold perform
  simp only [hpayload]

/-- The text that is written for an accepted payload, with the line break behind it or without,
stands for what is kept with its resource left out. That is accepted and kept as it is, and whoever
validates the text is given the same answer as the one who validated the payload. Of the numbers
that are kept, each must be read back from its own text. -/
theorem validate_reads_back (haccept : Revision.acceptPayload payload = .ok kept)
    (hnumbers : ∀ x ∈ kept.numbers, Json.ReadsBack x) :
    validate .json payload = .success (kept.toJson.pretty ++ "\n") ∧
      validate .text payload = .success
        ("✓ valid " ++ payload.kind.name ++ "\n" ++ (kept.toJson.pretty ++ "\n")) ∧
      (∀ text ∈ [kept.toJson.pretty, kept.toJson.pretty ++ "\n"],
        Payload.ofText payload.kind text = .ok kept.withoutResource ∧
          ∀ env s input?, inputText env input? = .ok text →
            perform env s (.validate payload.kind.name input?) = validate s.format payload) ∧
      Revision.acceptPayload kept.withoutResource = .ok kept.withoutResource ∧
      kept.withoutResource.toJson.pretty = kept.toJson.pretty := by
  have hkept : payload.accept = .ok kept := Revision.acceptPayload_eq_ok_iff.mp haccept
  have hkind : kept.kind = payload.kind := by
    obtain ⟨-, rfl⟩ := Payload.accept_eq_ok_iff.mp hkept
    exact payload.kind_normalize
  have hagain : Revision.acceptPayload kept.withoutResource = .ok kept.withoutResource :=
    Revision.acceptPayload_eq_ok_iff.mpr (Payload.accept_withoutResource_of_accept hkept)
  have htext : ∀ text ∈ [kept.toJson.pretty, kept.toJson.pretty ++ "\n"],
      Payload.ofText payload.kind text = .ok kept.withoutResource := by
    have hpretty := kept.ofText_pretty hnumbers "" (by simp)
    have hline := kept.ofText_pretty hnumbers "\n" (by simp [Json.Token.isBlank])
    rw [hkind, String.append_empty] at hpretty
    rw [hkind] at hline
    simp only [List.forall_mem_cons]
    exact ⟨hpretty, hline, List.forall_mem_nil _⟩
  have hanswer : ∀ format, validate format kept.withoutResource = validate format payload := by
    intro format
    rw [validate_of_accept format hagain, validate_of_accept format haccept,
      approval_withoutResource]
  refine ⟨validate_of_accept .json haccept, ?_, ?_, hagain, ?_⟩
  · rw [validate_of_accept .text haccept, approval, hkind]
  · intro text hmem
    refine ⟨htext text hmem, fun env s input? hinput => ?_⟩
    rw [perform_validate hinput (htext text hmem), hanswer]
  · rw [kept.toJson_withoutResource]

theorem acceptPayload_of_valid (hvalid : ∀ c ∈ payload.constraints, c.error? = none) :
    Revision.acceptPayload payload = .ok payload.normalize :=
  Revision.acceptPayload_eq_ok_iff.mpr
    (Payload.accept_eq_ok_iff.mpr ⟨Payload.validate_eq_ok_iff.mpr hvalid, rfl⟩)

def placedSymbol : Payload :=
  .component { pos := ⟨Binary64.zero.negate, .ofNat 100⟩, angle := 90, symbol := ⟨some 7⟩ }

/-- A hatched path whose commands hold a quotation mark, a control character and others. Its line
is solid, so that the length of the dashes is not kept. -/
def hatchedPath : Payload :=
  .path {
    commands := "M 0,0 \"\\\x01\né😀"
    color := 3
    line := { width := (Binary64.ofNat 1).divMagnitude (.ofNat 3), dashLength := .ofNat 5 }
    fill := { style := 3, angle0 := -45, pitch0 := .ofNat 5 } }

theorem validate_reads_back_samples :
    (Revision.acceptPayload placedSymbol = .ok placedSymbol ∧
      (∀ x ∈ placedSymbol.numbers, Json.ReadsBack x) ∧
      Payload.ofText .component (placedSymbol.toJson.pretty ++ "\n") =
        .ok (.component { pos := ⟨Binary64.zero.negate, .ofNat 100⟩, angle := 90 })) ∧
    (Revision.acceptPayload hatchedPath = .ok hatchedPath.normalize ∧
      (∀ x ∈ hatchedPath.normalize.numbers, Json.ReadsBack x) ∧
      Payload.ofText .path (hatchedPath.normalize.toJson.pretty ++ "\n") =
        .ok hatchedPath.normalize) := by
  have hsymbol : Revision.acceptPayload placedSymbol = .ok placedSymbol :=
    acceptPayload_of_valid (by decide +kernel)
  have hsymbol' : ∀ x ∈ placedSymbol.numbers, Json.ReadsBack x := by decide +kernel
  have hpath : Revision.acceptPayload hatchedPath = .ok hatchedPath.normalize :=
    acceptPayload_of_valid (by decide +kernel)
  have hpath' : ∀ x ∈ hatchedPath.normalize.numbers, Json.ReadsBack x := by decide +kernel
  obtain ⟨-, -, hreads, -⟩ := validate_reads_back hsymbol hsymbol'
  obtain ⟨-, -, hreads', -⟩ := validate_reads_back hpath hpath'
  exact ⟨⟨hsymbol, hsymbol', (hreads _ (.tail _ (.head _))).1⟩,
    ⟨hpath, hpath', (hreads' _ (.tail _ (.head _))).1⟩⟩

end Schematic.CommandLine
