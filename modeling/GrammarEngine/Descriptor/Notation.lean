import GrammarEngine.Fault

/-!
# The notation of descriptors

A descriptor is read from its written form. The mark alone is no descriptor, but for the end of the
input, which is written as its mark alone.

Main result:

* `Descriptor.parse_render` — a descriptor with a name is read back from its written form.
-/

namespace GrammarEngine

namespace Descriptor

/-- Reads a descriptor. -/
def parse (written : String) : Except Fault Descriptor :=
  match written.toList with
  | [] => .error (.grammar (.notAToken (.text written)))
  | mark :: name =>
    match Kind.ofMark? mark with
    | none => .error (.grammar (.unmarkedToken written))
    | some .endOfInput =>
      if name.isEmpty then .ok atEnd else .error (.grammar (.decoratedEnd written))
    | some kind =>
      if name.isEmpty then .error (.grammar (.namelessToken written))
      else .ok ⟨kind, String.ofList name⟩

/-- Reads a descriptor from data; only a text can be one. -/
def ofPayload : Payload → Except Fault Descriptor
  | .text written => parse written
  | other => .error (.grammar (.notAToken other))

theorem parse_render {kind : Kind} {name : String} (hk : kind ≠ .endOfInput) (hn : name ≠ "") :
    parse (render ⟨kind, name⟩) = .ok ⟨kind, name⟩ := by
  have hl : name.toList ≠ [] := by simpa using hn
  cases kind <;>
    simp_all [parse, render, Kind.mark, Kind.ofMark?, String.ofList_toList]

end Descriptor

end GrammarEngine
