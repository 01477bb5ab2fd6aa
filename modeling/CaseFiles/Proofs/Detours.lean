import CaseFiles.Listing
import CaseFiles.Proofs.Candidacy
import CaseFiles.Proofs.Format.Direct

/-!
# Formats with detours

A file that is recognised lies below the directory, at the names that its slot is rendered into. So a
format with a detour, which is a segment that is empty, `.` or `..`, recognises nothing: a resolved
path has no detours. The path at which a file belongs has none either, so that it is recognised
exactly if the format goes straight. Main statements: `direct_of_recognize`,
`recognize_pathFor_linkFree`.
-/

namespace CaseFiles

open CaseFiles.Format (Direct parts rendered validate)

open CaseFiles.Path (Plain isName splitSlash)

namespace Format

/-- A path is made of what is in the format and in the values. -/
theorem mem_of_mem_rendered {f name ext : Text} (hf : validate f = .ok ()) {c : Char}
    (hc : c ∈ rendered name ext (parts f)) :
    c ∈ f ∨ c ∈ name ∨ c ∈ ext := by
  obtain ⟨hend, -, -, -⟩ := validate_eq_ok_iff.mp hf
  obtain ⟨p, hp, hc⟩ := List.mem_flatMap.mp hc
  cases p with
  | text x =>
    obtain rfl := List.mem_singleton.mp hc
    have hwritten : c ∈ written (parts f) := by
      refine List.mem_flatMap.mpr ⟨_, hp, ?_⟩
      change c ∈ writeChar c
      unfold writeChar
      split
      next hpercent => exact hpercent ▸ List.mem_cons_self
      next => exact List.mem_cons_self
    rw [written_parts hend] at hwritten
    exact Or.inl hwritten
  | field key =>
    have hvalue : c ∈ caseValue name ext key := hc
    unfold caseValue at hvalue
    split at hvalue
    · exact Or.inr (Or.inl hvalue)
    · exact Or.inr (Or.inr hvalue)

end Format

section

variable {d : Disk} {directory f p : Text} {s : Slot} (hf : validate f = .ok ())
  (hrec : recognize d directory f p = .ok (some s))

include hf hrec

/-- The slot of a recognised file is rendered into names. -/
theorem isName_of_recognize :
    ∀ n ∈ splitSlash (rendered s.name s.ext.text (parts f)), isName n = true := by
  obtain ⟨root, -, hplace⟩ := settle_of_recognize hf hrec (Format.render_caseTable hf s.name s.ext)
  exact fun n hn => Disk.isName_of_settle hplace n (List.mem_append_right root hn)

/-- Only a format that goes straight recognises anything. -/
theorem direct_of_recognize : Direct f :=
  Format.direct_of_plain_rendered hf fun n hn =>
    (Path.isName_iff.mp (isName_of_recognize hf hrec n hn)).1

end

theorem Ext.exists_ne_dot (e : Ext) : ∃ c ∈ e.text, c ≠ '.' := by
  cases e
  · exact ⟨'i', by decide, by decide⟩
  · exact ⟨'o', by decide, by decide⟩

/-- Where there are no links, the path at which a file of a test case belongs is recognised for the
slot of the file if the format goes straight. If it does not, the path is not recognised at all. -/
theorem recognize_pathFor_linkFree {d : Disk} {directory f name : Text} (e : Ext)
    (ht : d.tree.LinkFree) (hf : validate f = .ok ()) (hdirectory : '\x00' ∉ directory)
    (hformat : '\x00' ∉ f) (hname : name ≠ [] ∧ ∀ c ∈ lineEnds, c ∉ name) (hslash : '/' ∉ name)
    (hdot : name.head? ≠ some '.') (hnul : '\x00' ∉ name) :
    ∃ path answer, Format.pathFor directory f name e = .ok path ∧
      recognize d directory f path = .ok answer ∧
      (answer = some ⟨name, e⟩ ↔ ∀ s ∈ splitSlash f, Plain s) ∧
      (answer = none ↔ ∃ s ∈ splitSlash f, ¬ Plain s) := by
  have hr := Format.render_caseTable hf name e
  have hnulRendered : '\x00' ∉ rendered name e.text (parts f) := by
    intro hc
    rcases Format.mem_of_mem_rendered hf hc with hc | hc | hc
    · exact hformat hc
    · exact hnul hc
    · cases e <;> exact absurd hc (by decide)
  have hroot : d.resolve directory = .ok (Path.ofLocation (d.locate directory)) :=
    Disk.resolve_eq ht (Disk.nul_not_mem_locate hdirectory)
  have hfile := Disk.resolve_eq ht (d.nul_not_mem_locate_join hdirectory hnulRendered)
  have hpath : Format.pathFor directory f name e =
      .ok (Path.join directory (rendered name e.text (parts f))) := by
    rw [Format.pathFor, hr]
    rfl
  obtain ⟨answer, hanswer⟩ : ∃ answer, recognize d directory f
      (Path.join directory (rendered name e.text (parts f))) = .ok answer :=
    ⟨_, recognize_eq hf hroot hfile⟩
  have hdirect (s : Slot) (hs : answer = some s) : Direct f :=
    direct_of_recognize hf (hs ▸ hanswer)
  have hsome (h : Direct f) : answer = some ⟨name, e⟩ := by
    have hnondot : ∃ c ∈ name, c ≠ '.' := by
      obtain ⟨c, rest, rfl⟩ := List.exists_cons_of_ne_nil hname.1
      exact ⟨c, List.mem_cons_self, fun hc => hdot (congrArg some hc)⟩
    have hplain := Format.plain_rendered_of_direct hf h hnondot e.exists_ne_dot hslash
      e.slash_not_mem_text
    have hnames : ∀ n ∈ splitSlash (rendered name e.text (parts f)), isName n = true := by
      intro n hn
      exact Path.isName_iff.mpr ⟨hplain n hn, Path.slash_not_mem_of_mem_splitSlash hn,
        fun hc => hnulRendered (Path.mem_of_mem_splitSlash hn hc).1⟩
    have hsettle : d.settle directory = .ok (d.locate directory) :=
      (Disk.settle_eq_ok_iff_locate ht).mpr ⟨Disk.nul_not_mem_locate hdirectory, rfl⟩
    have hrec := recognize_join hf hsettle hname hr hnames fun _ _ _ target => ht _ target
    exact Except.ok.inj (hanswer.symm.trans hrec)
  refine ⟨_, answer, hpath, hanswer, ⟨hdirect _, hsome⟩, ?_⟩
  constructor
  · intro hnone
    by_contra hall
    rw [hsome fun s hs => by_contra fun hplain => hall ⟨s, hs, hplain⟩] at hnone
    cases hnone
  · rintro ⟨s, hs, hplain⟩
    cases answer with
    | none => rfl
    | some slot => exact absurd (hdirect slot rfl s hs) hplain

/-- There are no links on a disk with nothing on it. -/
theorem linkFree_bare : (Disk.bare [] Disk.named_root).tree.LinkFree :=
  FileTree.linkFree_of_linkCount rfl

/-- Below a directory that does not exist, and with a format that has a percent sign for the name of
a directory, an output is recognised where it belongs. -/
theorem recognize_pathFor_percent :
    (Disk.bare [] Disk.named_root).tree.LinkFree ∧
      validate ['%', '%', '/', '%', 's', '.', '%', 'e'] = .ok () ∧
      Format.pathFor ['d', '/'] ['%', '%', '/', '%', 's', '.', '%', 'e'] ['a'] .output =
        .ok ['d', '/', '%', '/', 'a', '.', 'o', 'u', 't'] ∧
      recognize (Disk.bare [] Disk.named_root) ['d', '/']
          ['%', '%', '/', '%', 's', '.', '%', 'e'] ['d', '/', '%', '/', 'a', '.', 'o', 'u', 't'] =
        .ok (some ⟨['a'], .output⟩) := by
  have hdirectory : '\x00' ∉ ['d', '/'] := by decide
  have hformat : '\x00' ∉ ['%', '%', '/', '%', 's', '.', '%', 'e'] := by decide
  have hname : (['a'] : Text) ≠ [] ∧ ∀ c ∈ lineEnds, c ∉ ['a'] :=
    ⟨by simp, by simp [lineEnds]⟩
  obtain ⟨path, answer, hpath, hrec, hsome, -⟩ :=
    recognize_pathFor_linkFree .output linkFree_bare rfl hdirectory hformat hname (by decide)
      (by decide) (by decide)
  obtain rfl : _ = path := Except.ok.inj hpath
  rw [hsome.mpr (by simp [splitSlash, Plain, Path.dot, Path.dotDot])] at hrec
  exact ⟨linkFree_bare, rfl, hpath, hrec⟩

/-- With a format that begins in the directory itself, an input is not recognised where it belongs. -/
theorem recognize_pathFor_dot :
    (Disk.bare [] Disk.named_root).tree.LinkFree ∧
      validate ['.', '/', '%', 's', '.', '%', 'e'] = .ok () ∧
      Format.pathFor ['.'] ['.', '/', '%', 's', '.', '%', 'e'] ['a'] .input =
        .ok ['a', '.', 'i', 'n'] ∧
      recognize (Disk.bare [] Disk.named_root) ['.'] ['.', '/', '%', 's', '.', '%', 'e']
        ['a', '.', 'i', 'n'] = .ok none := by
  have hroot : (Disk.bare [] Disk.named_root).resolve ['.'] = .ok ['/'] := rfl
  have hfile : (Disk.bare [] Disk.named_root).resolve ['a', '.', 'i', 'n'] =
      .ok ['/', 'a', '.', 'i', 'n'] := rfl
  have hf : validate ['.', '/', '%', 's', '.', '%', 'e'] = .ok () := rfl
  refine ⟨linkFree_bare, hf, rfl, ?_⟩
  obtain ⟨answer, hrec⟩ : ∃ answer, recognize (Disk.bare [] Disk.named_root) ['.']
      ['.', '/', '%', 's', '.', '%', 'e'] ['a', '.', 'i', 'n'] = .ok answer :=
    ⟨_, recognize_eq hf hroot hfile⟩
  cases answer with
  | none => exact hrec
  | some s =>
    have hdirect := direct_of_recognize hf hrec
    exact absurd rfl (hdirect ['.'] List.mem_cons_self).2.1

end CaseFiles
