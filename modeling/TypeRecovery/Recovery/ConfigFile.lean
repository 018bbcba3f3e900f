import TypeRecovery.Recovery.Config
import TypeRecovery.Toml.Reader
import TypeRecovery.Json.Basic

/-!
# Configuration files

A configuration file sets some of the options; the others keep their defaults, and keys that name
no option are left alone.
-/

namespace TypeRecovery

namespace Toml

/-- A number of at most 32 bits. -/
def uint32? : Toml → Option UInt32
  | .integer n => if 0 ≤ n ∧ n < UInt32.size then some (UInt32.ofNat n.toNat) else none
  | _ => none

/-- A truth value. -/
def boolean? : Toml → Option Bool
  | .boolean b => some b
  | _ => none

/-- The value of a key, or a default if the key is not there. -/
def option? {α : Type} (entries : Entries) (key : String) (decode : Toml → Option α) (value : α) :
    Option α :=
  match entries.lookup key with
  | none => some value
  | some v => decode v

end Toml

namespace Config

/-- The configuration that the root table of a document sets. -/
def ofToml? (entries : Toml.Entries) : Option Config := do
  let default : Config := {}
  let maxRounds ← Toml.option? entries "max_rounds" Toml.uint32? default.maxRounds
  let requireHeritageForMerges ←
    Toml.option? entries "require_heritage_for_merges" Toml.boolean?
      default.requireHeritageForMerges
  let propagateAcrossReturns ←
    Toml.option? entries "propagate_across_returns" Toml.boolean? default.propagateAcrossReturns
  let propagateSpacebase ←
    Toml.option? entries "propagate_spacebase" Toml.boolean? default.propagateSpacebase
  return { maxRounds, requireHeritageForMerges, propagateAcrossReturns, propagateSpacebase }

/-- The configuration that a text sets. -/
def parse? (text : String) : Option Config := (Toml.parse? text).bind ofToml?

/-- A configuration as a record. -/
def toJson (c : Config) : Json :=
  .record
    [("max_rounds", .nat c.maxRounds.toNat),
      ("require_heritage_for_merges", .bool c.requireHeritageForMerges),
      ("propagate_across_returns", .bool c.propagateAcrossReturns),
      ("propagate_spacebase", .bool c.propagateSpacebase)]

end Config

end TypeRecovery
