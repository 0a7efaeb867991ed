import MiniJava.Proofs.Assembly.Strings
import MiniJava.Proofs.Compile.Linked
import MiniJava.Proofs.Machine.Execution

/-!
# Strings from the text to the output

A string of bytes that is escaped and put into the data segment arrives in memory as it was, and is
printed as it was if it has no zero bytes.

* **`Memory.Begins`** — the memory begins with the data of a program.
* **`string_of_begins`** — a string of the data is read back.
* **`string_data_survives`** — all of it, from the text to the output.
-/

namespace MiniJava

open Machine Instr Reg
open Assembler (DataString CodeBehind stringLines assemble_strings entryName)

/-! ### Strings in memory -/

/-- The memory begins with the data. -/
def Memory.Begins (m : Memory) (data : Bytes) : Prop := data <+: m.heap.data.toList

theorem Memory.begins_start (p : Image) (cfg : Config) (limit : Option Nat) :
    (State.start p cfg limit).memory.Begins p.data := by
  show p.data <+: (p.data ++ Bytes.replicate _ 0).toByteArray.data.toList
  rw [List.toList_data_toByteArray]
  exact List.prefix_append _ _

/-- A string of the data is read up to the zero byte behind it. -/
theorem Memory.string_of_begins {m : Memory} {front text back : Bytes}
    (h : m.Begins (front ++ (text ++ [0]) ++ back)) (hzero : 0 ∉ text)
    (hlow : front.length + text.length < 0xefff0000) :
    m.string (dataBase + UInt32.ofNat front.length) = .ok text := by
  obtain ⟨rest, hrest⟩ := h
  have hheap : m.heap.data.toList = front ++ (text ++ 0 :: (back ++ rest)) := by
    rw [← hrest]
    simp
  have hsize : m.heap.size = front.length + (text.length + (back ++ rest).length + 1) := by
    rw [show m.heap.size = m.heap.data.toList.length from m.heap.data.length_toList.symm, hheap]
    simp only [List.length_append, List.length_cons]
    omega
  have hget (i : Nat) :
      m.heap.get! (front.length + i) = (text ++ 0 :: (back ++ rest)).getD i 0 := by
    rw [Block.get!_eq_getD, hheap, List.getD_append_right _ _ _ _ (Nat.le_add_right _ _),
      Nat.add_sub_cancel_left]
  apply string_heap (by omega) hlow
  · intro i hi
    rw [hget, List.getD_append _ _ _ _ hi]
    refine ⟨rfl, ?_⟩
    intro heq
    rw [List.getD_eq_getElem _ _ hi] at heq
    exact hzero (heq ▸ List.getElem_mem hi)
  · rw [hget, List.getD_append_right _ _ _ _ (Nat.le_refl _), Nat.sub_self]
    rfl

/-! ### The whole way -/

theorem bytes_append_cons (front back : List DataString) (d : DataString) :
    DataString.bytes (front ++ d :: back) =
      DataString.bytes front ++ (d.content ++ [0]) ++ DataString.bytes back := by
  simp [DataString.bytes]

theorem address?_of_lookup {p : Image} {l : Bytes} {a : UInt32}
    (h : p.dataLabels.lookup l = some a) : p.address? l = some a := by
  rw [Image.address?, h]
  rfl

/-- Strings survive.  Lines of string data, with any remarks, and code behind them assemble.  The
data is the strings with a zero byte after each, the label of a string stands for the place behind
the strings in front of it, and the code lies in the image.  Where the code prints a string without
zero bytes, just its bytes are printed, in any state in which the data is still in memory; so it is
at the start. -/
theorem string_data_survives {ds : List DataString} (hds : ∀ d ∈ ds, d.Writable)
    (hdistinct : (ds.map (·.label)).Nodup) (hsize : (DataString.bytes ds).length < 0x10000000)
    {c : Code} (hc : CodeBehind ds c) :
    ∃ p, assemble ((stringLines ds c).flatMap fun line => (line ++ "\n" : Bytes)) = .ok p ∧
      p.data = DataString.bytes ds ∧
      (∀ front d back, ds = front ++ d :: back → p.dataLabels.lookup d.label =
        some (dataBase + UInt32.ofNat (DataString.bytes front).length)) ∧
      LiesAt p 0 c ∧
      (∀ cfg limit, (State.start p cfg limit).memory.Begins p.data) ∧
      ∀ d ∈ ds, 0 ∉ d.content → ∀ cfg (k : Nat) (s : Machine.State),
        LiesAt p k (Support.printString d.label) → s.pc = k → s.exited = false →
        s.memory.Begins p.data → s.console.accepts d.content.length → ∃ s', Steps p cfg 3 s s' ∧ s'.pc = (k + 3 : Nat) ∧
          s'.memory = s.memory ∧ s'.console.output = s.console.output ++ d.content := by
  have hplaces : ∀ front d back, ds = front ++ d :: back →
      (DataString.places 0 ds).reverse.lookup d.label =
        some (dataBase + UInt32.ofNat (DataString.bytes front).length) := by
    rintro front d back rfl
    apply Code.lookup_of_mem
    · rw [List.map_reverse, List.nodup_reverse, DataString.map_fst_places]
      exact hdistinct
    · rw [List.mem_reverse]
      simpa using DataString.mem_places 0 front back d
  let p : Image := ⟨(c.numbered (ds.length + 3)).toArray, DataString.bytes ds,
    (DataString.places 0 ds).reverse, (c.placed 0).reverse, entryName⟩
  refine ⟨p, assemble_strings hds hdistinct hc, rfl, hplaces, ?_, Memory.begins_start p, ?_⟩
  · have hholds : p.Holds 0 c := by
      intro j i hj
      obtain ⟨line, hline⟩ := Code.getElem?_numbered (n := ds.length + 3) hj
      exact ⟨line, by simpa [p] using hline⟩
    exact @liesAt_of_holds p [] c [] (by simpa using hholds) (by simp [p]) (by simpa using hc.nodup)
  · intro d hd hzero cfg k s hlies hpc hrunning hbegins hconsole
    obtain ⟨front, back, hsplit⟩ := List.append_of_mem hd
    have hlength : (DataString.bytes front).length + d.content.length < 0x10000000 := by
      rw [hsplit, bytes_append_cons] at hsize
      simp only [List.length_append] at hsize
      omega
    replace hbegins : s.memory.Begins (DataString.bytes ds) := hbegins
    rw [hsplit, bytes_append_cons] at hbegins
    have htext := Memory.string_of_begins hbegins hzero (Nat.lt_trans hlength (by decide))
    have haddress : p.address? d.label = some _ :=
      address?_of_lookup (hplaces front d back hsplit)
    have hli : Performs p (k + 1) (.li v0 4) := hlies.2.1
    obtain ⟨s', hsteps, hpc', -, hmemory, hprinted⟩ :=
      steps_printString hlies.1 hli hlies.2.2.1 haddress htext hconsole hpc hrunning
    refine ⟨s', hsteps, hpc', hmemory, ?_⟩
    rw [hprinted, output_print]

/-- A string with everything that means something on a line, and bytes that are no text. -/
def oddString : DataString :=
  ⟨"odd", utf8 "a: \"#\\\", $t\n\t" ++ [0xff, 0xc3], utf8 "\" odd: #" ++ [13]⟩

/-- That string, behind another one. -/
def oddStrings : List DataString := [⟨"first", [0, 1], []⟩, oddString]

/-- Code that prints it. -/
def printingOdd : Code := .label "main" :: (Support.printString "odd" ++ Support.exit)

theorem string_data_survives_odd : ∃ p s',
    assemble ((stringLines oddStrings printingOdd).flatMap fun line => (line ++ "\n" : Bytes)) =
      .ok p ∧
    Steps p .tight 3 (State.start p .tight none) s' ∧ s'.console.output = oddString.content := by
  have hfits : ∀ d ∈ oddStrings, isLabel d.label ∧ '\n'.toUInt8 ∉ d.remark ∧
      d.write.length < Assembler.lineLimit := by
    decide +kernel
  have hcode : CodeBehind oddStrings printingOdd :=
    ⟨by decide +kernel, by decide +kernel, by decide +kernel, by decide +kernel, by decide +kernel⟩
  obtain ⟨p, hasm, -, -, hlies, hbegins, hprints⟩ :=
    string_data_survives (fun d hd => ⟨(hfits d hd).1, (hfits d hd).2.1, (hfits d hd).2.2⟩)
      (by decide +kernel) (by decide +kernel) hcode
  have hstart : (assemble ((stringLines oddStrings printingOdd).flatMap
      fun line => (line ++ "\n" : Bytes))).toOption.any fun p =>
        (State.start p .tight none).pc = 0 := by
    decide +kernel
  rw [hasm] at hstart
  have hpc : (State.start p .tight none).pc = (0 : Nat) := of_decide_eq_true hstart
  have hprinting : LiesAt p 0 (Support.printString "odd") := (liesAt_append.mp hlies.2).1
  obtain ⟨s', hsteps, -, -, houtput⟩ := hprints oddString (by simp [oddStrings]) (by decide +kernel)
    .tight 0 (State.start p .tight none) hprinting hpc rfl (hbegins .tight none) rfl
  exact ⟨p, s', hasm, hsteps, houtput⟩

end MiniJava
