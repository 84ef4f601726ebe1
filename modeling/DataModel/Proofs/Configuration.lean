import DataModel.Configuration
import DataModel.Proofs.FileTree.Faults
import DataModel.Proofs.FileTree.Walking

/-!
Where settings come from. However a configuration file writes the model root, its path starts with
slashes or with nothing, also when it was made absolute.
-/
namespace DataModel

theorem Path.isSlashed_ofString (text : String) : (Path.ofString text).IsSlashed := by
  unfold IsSlashed ofString rootOf
  dsimp only
  split
  · simp
  · simp
  · simp

theorem FileTree.resolve_slashed {t : FileTree} {current p real : Path}
    (resolved : t.resolve current p = .ok real) : real.IsSlashed := by
  unfold resolve at resolved
  split at resolved
  · cases resolved
  · dsimp only at resolved
    split at resolved
    · cases resolved
    · cases resolved
      show ∀ c ∈ "/".toList, c = '/'
      simp

namespace Configuration
variable {t : FileTree} {current path p : Path} {settings : Settings}

theorem asPath_slashed {v : Yaml.Value} (read : asPath v = .ok p) : p.IsSlashed := by
  unfold asPath at read
  split at read
  · cases read
    exact Path.isSlashed_ofString _
  · cases read

theorem optional_slashed {found : Option (String × Yaml.Value)}
    (read : optional found asPath (.ofString ".") = .ok p) : p.IsSlashed := by
  unfold optional at read
  split at read
  · cases read
    exact Path.isSlashed_ofString _
  · exact asPath_slashed (ok_of_mapError read)

theorem ofPairs_slashed {d : Yaml.Built} {pairs : List (Yaml.NodeId × Yaml.NodeId)}
    (read : ofPairs d pairs = .ok settings) : settings.modelRoot.IsSlashed := by
  unfold ofPairs at read
  dsimp only at read
  split at read
  · next root _ _ =>
    cases read
    exact optional_slashed root
  · cases read

theorem parse_slashed {text : String} (read : parse text = .ok settings) :
    settings.modelRoot.IsSlashed := by
  obtain ⟨document, -, read⟩ := ok_of_bind read
  cases document with
  | none => cases read
  | some d =>
      obtain ⟨d, -, read⟩ := ok_of_bind read
      split at read
      · exact ofPairs_slashed (ok_of_mapError read)
      · cases read

/-- The model root starts with slashes, or with nothing. -/
theorem load_slashed (loaded : load t current path = .ok settings) :
    settings.modelRoot.IsSlashed := by
  obtain ⟨bytes, -, loaded⟩ := ok_of_bind loaded
  obtain ⟨text, -, loaded⟩ := ok_of_bind loaded
  obtain ⟨written, read, loaded⟩ := ok_of_bind loaded
  split at loaded
  · cases loaded
    exact parse_slashed read
  · obtain ⟨root, resolved, loaded⟩ := ok_of_bind loaded
    cases loaded
    exact FileTree.resolve_slashed (ok_of_mapError resolved)

end Configuration
end DataModel
