import Renaming.Proofs.FileTree.Gathered

/-!
# `Proofs/FileTree/Product` — what a job writes

Where a file goes depends on the table and the output folder, what it holds only on the table and on
what it held (`newContent`): bytes that are no text, and texts that declare no class, are copied as
they are. A job is reported as one that changed nothing only where it writes what it read
(`newContent_eq_of_status`), which the comparison of texts alone does not say: bytes that were read
as a text are the bytes of this text.
-/

set_option autoImplicit false

namespace Renaming

namespace Text

theorem toList_loop (bs : ByteArray) (i : Nat) (r : List UInt8) :
    ByteArray.toList.loop bs i r = r.reverse ++ bs.data.toList.drop i := by
  induction i, r using ByteArray.toList.loop.induct bs with
  | case1 i r h ih =>
    have hi : i < bs.data.toList.length := h
    have hget : bs.get! i = bs.data.toList[i] := by
      show bs.data[i]! = _
      rw [getElem!_pos bs.data i h, Array.getElem_toList]
    rw [ByteArray.toList.loop.eq_1, if_pos h, ih, List.drop_eq_getElem_cons hi, List.reverse_cons,
      List.append_assoc, hget]
    rfl
  | case2 i r h =>
    have hi : bs.data.toList.length ≤ i := Nat.le_of_not_lt h
    rw [ByteArray.toList.loop.eq_1, if_neg h, List.drop_eq_nil_of_le hi, List.append_nil]

/-- Bytes that were read as a text are the bytes of this text. -/
theorem utf8_of_ofUtf8? {bs : List UInt8} {t : Text} (h : ofUtf8? bs = some t) : utf8 t = bs := by
  unfold ofUtf8? String.fromUTF8? at h
  split at h
  · cases h
    show ByteArray.toList.loop _ 0 [] = bs
    rw [String.ofList_toList, toList_loop]
    rfl
  · cases h

end Text

/-- A path that does not begin with a slash starts at no root. -/
theorem Path.rootOf_of_head? {t : Text} (h : t.head? ≠ some '/') : rootOf t = [] := by
  unfold rootOf
  split
  · exact absurd rfl h
  · exact absurd rfl h
  · exact absurd rfl h
  · rfl

namespace FileTree

/-- What a file holds when its names are renamed. -/
def newContent (table : Table) (b : Bytes) : Bytes :=
  match Text.ofUtf8? b with
  | none => b
  | some text =>
    match (Assembly.rename table text).newName with
    | none => b
    | some _ => Text.utf8 (Assembly.rename table text).text

namespace Job

/-- How a job is reported when what it writes is written. -/
def report (table : Table) (output : Path) (j : Job) : Except Fault Outcome :=
  (j.product table output).status.map fun s =>
    ⟨j.source, (j.product table output).destination, s, (j.product table output).renamed⟩

variable {table : Table} {output : Path} {j : Job}

/-- A file is copied, or it is a text with a class and goes where the class goes. -/
theorem product_cases (table : Table) (output : Path) (j : Job) :
    (j.product table output = j.copy output ∧ newContent table j.content = j.content) ∨
    ∃ text name, Text.ofUtf8? j.content = some text ∧
      (Assembly.rename table text).newName = some name ∧
      newContent table j.content = Text.utf8 (Assembly.rename table text).text ∧
      j.product table output =
        ⟨destination output name, Text.utf8 (Assembly.rename table text).text,
          j.status output (destination output name) ((Assembly.rename table text).text == text),
          (Assembly.rename table text).renamed⟩ := by
  cases htext : Text.ofUtf8? j.content with
  | none => exact .inl ⟨by simp only [product, htext], by simp only [newContent, htext]⟩
  | some text =>
    cases hname : (Assembly.rename table text).newName with
    | none =>
      exact .inl ⟨by simp only [product, htext, hname], by simp only [newContent, htext, hname]⟩
    | some name =>
      refine .inr ⟨text, name, rfl, hname, ?_, ?_⟩
      · simp only [newContent, htext, hname]
      · simp only [product, htext, hname]

theorem content_product (table : Table) (output : Path) (j : Job) :
    (j.product table output).content = newContent table j.content := by
  obtain ⟨hcopy, hnew⟩ | ⟨text, name, -, -, hnew, hproduct⟩ := product_cases table output j
  · rw [hcopy, hnew]
    rfl
  · rw [hproduct, hnew]

/-- Every job writes an assembly file. -/
theorem isAssembly_destination (table : Table) (output : Path)
    (h : ∃ ns n, j.names = ns ++ [n ++ assemblySuffix]) :
    (j.product table output).destination.IsAssembly := by
  obtain ⟨hcopy, -⟩ | ⟨text, name, -, -, -, hproduct⟩ := product_cases table output j
  · obtain ⟨ns, n, hnames⟩ := h
    rw [hcopy]
    exact ⟨output.names ++ ns, n, by simp [copy, hnames]⟩
  · rw [hproduct]
    exact (Path.isAssembly_ofText name).join

/-- A job whose destination is spelt as one below the output folder can be reported. -/
theorem exists_report (h : (output.below? (j.product table output).destination).isSome) :
    ∃ o, j.report table output = .ok o := by
  unfold report
  obtain ⟨hcopy, -⟩ | ⟨text, name, -, -, -, hproduct⟩ := product_cases table output j
  · rw [hcopy]
    exact ⟨_, rfl⟩
  · rw [hproduct] at h ⊢
    obtain ⟨names, hnames⟩ := Option.isSome_iff_exists.1 h
    simp only [status, hnames]
    exact ⟨_, rfl⟩

/-- What keeps a job from being reported is the spelling of its destination. -/
theorem report_eq_error {f : Fault} (h : j.report table output = .error f) :
    f = .path .outsideOutput := by
  unfold report at h
  obtain ⟨hcopy, -⟩ | ⟨text, name, -, -, -, hproduct⟩ := product_cases table output j
  · rw [hcopy] at h
    cases h
  · rw [hproduct] at h
    dsimp only at h
    unfold status at h
    split at h
    · cases h
      rfl
    · cases h

/-- A job that is reported has its destination spelt below the output folder. -/
theorem below?_of_report {o : Outcome} (h : j.report table output = .ok o) :
    (output.below? (j.product table output).destination).isSome := by
  unfold report at h
  obtain ⟨hcopy, -⟩ | ⟨text, name, -, -, -, hproduct⟩ := product_cases table output j
  · rw [hcopy, copy, Path.below?, if_pos rfl, Path.namesBehind_eq_some_iff.2 rfl]
    rfl
  · rw [hproduct] at h ⊢
    dsimp only at h ⊢
    unfold status at h
    split at h
    · cases h
    · rename_i names hnames
      rw [hnames]
      rfl

/-- A class whose new name does not begin with a slash has its file spelt below the output
folder. -/
theorem below?_destination {name : Text} (h : name.head? ≠ some '/') :
    (output.below? (destination output name)).isSome := by
  have hhead : (name ++ assemblySuffix).head? ≠ some '/' := by
    cases name with
    | nil => exact fun heq => absurd heq (by decide)
    | cons c cs => exact h
  have hrelative : (Path.ofText (name ++ assemblySuffix)).isAbsolute = false := by
    rw [Path.isAbsolute, Path.ofText, Path.rootOf_of_head? hhead]
    rfl
  have hjoin : destination output name =
      ⟨output.root, output.names ++ (Path.ofText (name ++ assemblySuffix)).names⟩ :=
    if_neg (by rw [hrelative]; exact Bool.false_ne_true)
  rw [hjoin, Path.below?, if_pos rfl, Path.namesBehind_eq_some_iff.2 rfl]
  rfl

/-- A destination is spelt below the output folder unless the new name of its class begins with a
slash. -/
theorem below?_product
    (h : ∀ text name, Text.ofUtf8? j.content = some text →
      (Assembly.rename table text).newName = some name → name.head? ≠ some '/') :
    (output.below? (j.product table output).destination).isSome := by
  obtain ⟨hcopy, -⟩ | ⟨text, name, htext, hname, -, hproduct⟩ := product_cases table output j
  · rw [hcopy, copy, Path.below?, if_pos rfl, Path.namesBehind_eq_some_iff.2 rfl]
    rfl
  · rw [hproduct]
    exact below?_destination (h text name htext hname)

/-- A report tells where the file was and where it is. -/
theorem report_eq_ok {o : Outcome} (h : j.report table output = .ok o) :
    o.source = j.source ∧ o.destination = (j.product table output).destination ∧
      (j.product table output).status = .ok o.status := by
  unfold report at h
  cases hs : (j.product table output).status with
  | error f =>
    rw [hs] at h
    cases h
  | ok s =>
    rw [hs] at h
    cases h
    exact ⟨rfl, rfl, rfl⟩

/-- What is not reported as changed is written as it was. -/
theorem newContent_eq_of_status {s : Status} (h : (j.product table output).status = .ok s)
    (hs : s ≠ .changed) : newContent table j.content = j.content := by
  obtain ⟨-, hnew⟩ | ⟨text, name, htext, -, hnew, hproduct⟩ := product_cases table output j
  · exact hnew
  · rw [hproduct] at h
    have hsame : (Assembly.rename table text).text = text := by
      simp only [status] at h
      split at h
      · cases h
      · split at h
        · cases h
          exact absurd rfl hs
        · rename_i hsame
          rw [not_or, Bool.not_eq_false, beq_iff_eq] at hsame
          exact hsame.2
    rw [hnew, hsame]
    exact Text.utf8_of_ofUtf8? htext

end Job

end FileTree

end Renaming
