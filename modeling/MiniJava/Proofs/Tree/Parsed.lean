import MiniJava.Proofs.Parse.Acceptance
import MiniJava.Proofs.Tree.Tokens
import MiniJava.Proofs.Tree.Weight
import MiniJava.Proofs.Tree.Written

/-!
# Trees that were read

What holds of the tree of every source that is read without complaint.

* **`written_of_parse`** — it can be written.
* **`tokens_of_parse`** — its tokens are tokens of the source.
* **`weight_le_of_parse`** — it weighs no more than the source has bytes.
-/

namespace MiniJava

open Grammar

/-- The tokens of a sentence that is read without complaint are genuine. -/
theorem genuine_of_small {source : Bytes} (h : Small (TokenStream.ofSource source).sentence) :
    Genuine (TokenStream.ofSource source).sentence := by
  intro t ht
  have hmem : t ∈ (TokenStream.ofSource source).pending := (List.takeWhile_subset _) ht
  exact ⟨spelled_of_mem_ofSource hmem, h t ht⟩

theorem programOf_of_parse {source : Bytes} (h : (Program.parse source).errors = []) :
    ProgramOf (ExpAt 0) (TokenStream.ofSource source).sentence (Program.parse source).program ∧
      Small (TokenStream.ofSource source).sentence := by
  have hparse : Program.parse source = ⟨(Program.parse source).program, []⟩ := by rw [← h]
  exact (Parse.ofTokens_eq_iff _ _).mp hparse

/-- What is read without complaint can be written. -/
theorem written_of_parse {source : Bytes} (h : (Program.parse source).errors = []) :
    (Program.parse source).program.Written := by
  obtain ⟨hp, small⟩ := programOf_of_parse h
  exact written_of_programOf hp (genuine_of_small small)

/-- The tokens of a tree that was read without complaint are tokens of its source. -/
theorem tokens_of_parse {source : Bytes} (h : (Program.parse source).errors = []) :
    (Program.parse source).program.tokens ⊆ (TokenStream.ofSource source).pending := by
  obtain ⟨hp, -⟩ := programOf_of_parse h
  exact fun t ht => (List.takeWhile_subset _) (tokens_of_programOf hp ht)

/-- What is read without complaint weighs no more than the source. -/
theorem weight_le_of_parse {source : Bytes} (h : (Program.parse source).errors = []) :
    (Program.parse source).program.weight ≤ source.length := by
  obtain ⟨hp, -⟩ := programOf_of_parse h
  calc (Program.parse source).program.weight
      ≤ (TokenStream.ofSource source).sentence.length := weight_le_of_programOf hp
    _ ≤ (TokenStream.ofSource source).pending.length := (List.takeWhile_sublist _).length_le
    _ ≤ source.length := length_ofSource_le source

end MiniJava
