import MiniJava.CommandLine
import MiniJava.Proofs.Text.Find

/-!
# The path of an assembly

The assembly of a source is written next to it, whatever the path of the source looks like: only
the last name of the path is changed, and dots in the names of directories do not matter.

* **`exists_front_name`** — every path has a last name, and something in front of that.
* **`outputPath_of_extension`**, **`outputPath_of_noExtension`** — the two ways in which the path of
  an assembly is made; `outputPath_append`: what is in front of the last name stays.
* **`outputPath_eq_self_iff`** — the path of an assembly is that of its source exactly if that ends
  in `.s`.
-/

namespace MiniJava.CommandLine

/-! ### Names -/

/-- What can be in front of the last name of a path: nothing, or something up to a slash. -/
def IsFront (front : Bytes) : Prop := front = [] ∨ ∃ dirs, front = dirs ++ "/"

section

variable {front name stem extension path : Bytes}

/-- Every path has a last name, which may be empty. -/
theorem exists_front_name (path : Bytes) :
    ∃ front name, path = front ++ name ∧ IsFront front ∧ '/'.toUInt8 ∉ name := by
  cases hcut : Bytes.cut '/'.toUInt8 path.reverse with
  | none =>
    have hnone := Bytes.cut_eq_none_iff.mp hcut
    exact ⟨[], path, rfl, .inl rfl, by simpa using hnone⟩
  | some parts =>
    obtain ⟨back, dirs⟩ := parts
    obtain ⟨hpath, hback⟩ := Bytes.cut_eq_some_iff.mp hcut
    refine ⟨dirs.reverse ++ "/", back.reverse, ?_, .inr ⟨dirs.reverse, rfl⟩, by simpa using hback⟩
    rw [← List.reverse_reverse path, hpath, List.reverse_append, List.reverse_cons]
    rfl

/-- A name has no dot, or it has an extension behind its last dot. -/
theorem exists_extension (name : Bytes) :
    '.'.toUInt8 ∉ name ∨
      ∃ stem extension, name = stem ++ '.'.toUInt8 :: extension ∧ '.'.toUInt8 ∉ extension := by
  cases hcut : Bytes.cut '.'.toUInt8 name.reverse with
  | none => exact .inl (by simpa using Bytes.cut_eq_none_iff.mp hcut)
  | some parts =>
    obtain ⟨back, stem⟩ := parts
    obtain ⟨hname, hback⟩ := Bytes.cut_eq_some_iff.mp hcut
    refine .inr ⟨stem.reverse, back.reverse, ?_, by simpa using hback⟩
    rw [← List.reverse_reverse name, hname, List.reverse_append, List.reverse_cons]
    simp

/-! ### Names of assemblies -/

/-- An extension is replaced, whatever is in front of it. -/
theorem outputPath_of_extension (hdot : '.'.toUInt8 ∉ extension)
    (hslash : '/'.toUInt8 ∉ extension) (stem : Bytes) :
    outputPath (stem ++ '.'.toUInt8 :: extension) = stem ++ ".s" := by
  have hreverse : (stem ++ '.'.toUInt8 :: extension).reverse =
      extension.reverse ++ '.'.toUInt8 :: stem.reverse := by simp
  have hcut : Bytes.cut '.'.toUInt8
      ((stem ++ '.'.toUInt8 :: extension).reverse.takeWhile (· != '/'.toUInt8)) =
        some (extension.reverse, stem.reverse.takeWhile (· != '/'.toUInt8)) := by
    rw [Bytes.cut_eq_some_iff, hreverse, List.takeWhile_append_of_pos, List.takeWhile_cons_of_pos]
    · exact ⟨rfl, by simpa using hdot⟩
    · decide
    · exact List.takeWhile_eq_self_iff.mp
        (Bytes.takeWhile_ne_of_not_mem (by simpa using hslash))
  have hstem : (stem ++ '.'.toUInt8 :: extension).length - extension.reverse.length - 1 =
      stem.length := by
    rw [List.length_append, List.length_cons, List.length_reverse]
    omega
  simp only [outputPath, hcut, hstem, List.take_left]

/-- Without an extension there is one added. -/
theorem outputPath_of_noExtension (hfront : IsFront front) (hslash : '/'.toUInt8 ∉ name)
    (hdot : '.'.toUInt8 ∉ name) : outputPath (front ++ name) = front ++ name ++ ".s" := by
  have hname : (front ++ name).reverse.takeWhile (· != '/'.toUInt8) = name.reverse := by
    have hslash : '/'.toUInt8 ∉ name.reverse := by simpa using hslash
    rcases hfront with rfl | ⟨dirs, rfl⟩
    · exact Bytes.takeWhile_ne_of_not_mem hslash
    · have hreverse : (dirs ++ utf8 "/" ++ name).reverse =
          name.reverse ++ '/'.toUInt8 :: dirs.reverse := by
        rw [List.reverse_append, List.reverse_append]
        rfl
      rw [hreverse, Bytes.takeWhile_ne_append hslash]
  have hcut : Bytes.cut '.'.toUInt8 name.reverse = none :=
    Bytes.cut_eq_none_iff.mpr (by simpa using hdot)
  simp only [outputPath, hname, hcut]

/-- Only the last name of a path is changed. -/
theorem outputPath_append (hfront : IsFront front) (hname : '/'.toUInt8 ∉ name) :
    outputPath (front ++ name) = front ++ outputPath name := by
  rcases exists_extension name with hdot | ⟨stem, extension, rfl, hdot⟩
  · have halone := outputPath_of_noExtension (.inl rfl) hname hdot
    rw [List.nil_append] at halone
    rw [outputPath_of_noExtension hfront hname hdot, halone, List.append_assoc]
  · have hslash : '/'.toUInt8 ∉ extension := by
      simp only [List.mem_append, List.mem_cons, not_or] at hname
      exact hname.2.2
    rw [← List.append_assoc, outputPath_of_extension hdot hslash,
      outputPath_of_extension hdot hslash, List.append_assoc]

/-- The path of an assembly ends in `.s`. -/
theorem suffix_outputPath (path : Bytes) : utf8 ".s" <:+ outputPath path := by
  unfold outputPath
  split
  · exact List.suffix_append _ _
  · exact List.suffix_append _ _

theorem slash_not_mem_outputPath (hname : '/'.toUInt8 ∉ name) :
    '/'.toUInt8 ∉ outputPath name := by
  have hs : '/'.toUInt8 ∉ utf8 ".s" := by decide
  unfold outputPath
  split
  · rw [List.mem_append, not_or]
    exact ⟨fun h => hname (List.mem_of_mem_take h), hs⟩
  · rw [List.mem_append, not_or]
    exact ⟨hname, hs⟩

/-- Only a path that ends in `.s` is that of its own assembly. -/
theorem outputPath_eq_self_iff : outputPath path = path ↔ utf8 ".s" <:+ path := by
  refine ⟨fun h => h ▸ suffix_outputPath path, ?_⟩
  rintro ⟨stem, rfl⟩
  have hslash : '/'.toUInt8 ∉ utf8 "s" := by decide
  exact outputPath_of_extension (by decide) hslash stem

end

end MiniJava.CommandLine
