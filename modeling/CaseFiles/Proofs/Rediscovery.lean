import CaseFiles.Proofs.Discovery
import CaseFiles.Proofs.Glob.Respelling
import CaseFiles.Proofs.Respelling

/-!
# Discovering from another spelling of the directory

Recognising resolves the directory and the files first, but the glob starts from the directory as it
is spelled. From two spellings the same test cases are discovered, up to the spelling of their
files, unless the glob begins with a globstar and only one of the spellings is a link: then nothing
is ever discovered from the link. Main statement: `discover_respelled`.
-/

namespace CaseFiles

open CaseFiles.Format (Direct globOf globSegments parts)

open CaseFiles.Path (Plain splitSlash joinSlash)

namespace Disk

variable {d : Disk} {directory directory' p p' : Text}

/-- Two paths that are resolved to one are settled at one place. -/
theorem exists_settle_of_resolve_eq {r : Text} (h : d.resolve directory = .ok r)
    (h' : d.resolve directory' = .ok r) :
    ∃ root, d.settle directory = .ok root ∧ d.settle directory' = .ok root := by
  obtain ⟨root, hroot, hr⟩ := exists_settle_of_resolve h
  obtain ⟨root', hroot', hr'⟩ := exists_settle_of_resolve h'
  obtain rfl : root = root' := by
    rw [← locate_of_settle hroot, ← locate_of_settle hroot', hr, hr']
  exact ⟨root, hroot, hroot'⟩

/-- The same names below two spellings of a directory are resolved alike. -/
theorem resolve_below {r : Text} (h : d.resolve directory = .ok r)
    (h' : d.resolve directory' = .ok r) {names : Location}
    (hp : d.locate p = d.locate directory ++ names)
    (hp' : d.locate p' = d.locate directory' ++ names) : d.resolve p = d.resolve p' := by
  obtain ⟨root, hroot, hroot'⟩ := exists_settle_of_resolve_eq h h'
  obtain ⟨hnul, hsettle⟩ := settle_eq_ok_iff.mp hroot
  obtain ⟨hnul', hsettle'⟩ := settle_eq_ok_iff.mp hroot'
  rw [← any_nul_eq_false_iff] at hnul hnul'
  rw [resolve, resolve, settle, settle, hp, hp', List.any_append, List.any_append, hnul, hnul',
    FileTree.settle_append_of_settle hsettle, FileTree.settle_append_of_settle hsettle']

end Disk

/-- The test cases have the same names in the same order, and files that are resolved alike. -/
structure SameFiles (d : Disk) (cases cases' : List Case) : Prop where
  names : cases.map Case.name = cases'.map Case.name
  files : ∀ c ∈ cases, ∀ c' ∈ cases', c.name = c'.name →
    d.resolve c.input = d.resolve c'.input ∧ c.output.map d.resolve = c'.output.map d.resolve

section

variable {d : Disk} {directory f : Text} {paths paths' : List Text} {slots : List Slot}

/-- Files that are recognised for the same slots make the same test cases, if they are resolved
alike. -/
theorem Recognized.sameFiles {cases cases' : List Case}
    (hslots : Recognized d directory f paths slots) (h : Assembled paths slots cases)
    (h' : Assembled paths' slots cases') (hpaths : paths.map d.resolve = paths'.map d.resolve) :
    SameFiles d cases cases' := by
  have hmem {ps : List Text} {s : Slot} {v : Except Error Text} :
      (s, v) ∈ slots.zip (ps.map d.resolve) ↔ ∃ q, (s, q) ∈ slots.zip ps ∧ d.resolve q = v := by
    rw [List.zip_map_right, List.mem_map]
    simp
  have hunique {s : Slot} {v w : Except Error Text} (hv : (s, v) ∈ slots.zip (paths.map d.resolve))
      (hw : (s, w) ∈ slots.zip (paths.map d.resolve)) : v = w := by
    have hnodup : ((slots.zip (paths.map d.resolve)).map Prod.fst).Nodup := by
      rw [List.map_fst_zip (by rw [List.length_map, hslots.length_eq])]
      exact hslots.distinct
    rw [← lookup_eq_some_iff hnodup] at hv hw
    exact Option.some.inj (hv.symm.trans hw)
  refine ⟨h.names.trans h'.names.symm, fun c hc c' hc' hname => ⟨?_, ?_⟩⟩
  · have hinput := hmem.mpr ⟨_, h.input c hc, rfl⟩
    have hinput' := hmem.mpr ⟨_, h'.input c' hc', rfl⟩
    rw [← hpaths, ← hname] at hinput'
    exact hunique hinput hinput'
  · have houtput {ps : List Text} {cs : List Case} (hcs : Assembled ps slots cs) {c : Case}
        (hc : c ∈ cs) (v : Except Error Text) :
        c.output.map d.resolve = some v ↔
          (⟨c.name, .output⟩, v) ∈ slots.zip (ps.map d.resolve) := by
      rw [Option.map_eq_some_iff, hmem]
      exact exists_congr fun q => and_congr_left fun _ => hcs.output c hc q
    apply Option.ext
    intro v
    rw [houtput h hc, houtput h' hc', hpaths, hname]

end

namespace Locator

variable {loc loc' : Locator} {d : Disk}

/-- What the glob of the format finds from the directory. -/
def searched (loc : Locator) (d : Disk) : List Text :=
  Glob.search d.tree (d.locate loc.directory) (globOf (parts loc.format))

/-- Nothing is discovered unless a file is recognised. -/
theorem exists_recognized_of_discover {cases : List Case}
    (h : (loc.discover d).outcome = .ok cases) :
    ∃ m ∈ loc.searched d, ∃ s,
      recognize d loc.directory loc.format (Path.join loc.directory m) = .ok (some s) := by
  rw [outcome_discover (candidates_eq loc.valid)] at h
  obtain ⟨slots, hslots, -⟩ := exists_assembled_of_pair loc.valid h
  have hne := ((hslots.pair_eq_ok_iff loc.valid).mp ⟨cases, h⟩).2
  obtain ⟨p, hp⟩ := List.exists_mem_of_ne_nil _ hne
  obtain ⟨slot, hslot, -⟩ := hslots.exists_slot
  obtain ⟨m, hm, rfl⟩ := List.mem_map.mp (List.mem_filter.mp hp).1
  exact ⟨m, hm, slot _, hslot _ hp⟩

/-- Nothing is discovered unless the format goes straight. -/
theorem direct_of_discover {cases : List Case} (h : (loc.discover d).outcome = .ok cases) :
    Direct loc.format := by
  obtain ⟨m, -, s, hs⟩ := exists_recognized_of_discover h
  exact direct_of_recognize loc.valid hs

/-- The directory itself is never recognised. -/
theorem recognize_ne_of_locate_eq {p : Text} (h : d.locate p = d.locate loc.directory) (s : Slot) :
    recognize d loc.directory loc.format p ≠ .ok (some s) := by
  intro hs
  obtain ⟨root, hroot, hplace⟩ := settle_of_recognize loc.valid hs (loc.render_eq s)
  rw [Disk.settle, h, ← Disk.settle, hroot, Except.ok.injEq, List.self_eq_append_right] at hplace
  exact Path.splitSlash_ne_nil _ hplace

/-- A glob that begins with a globstar discovers nothing from a link. -/
theorem not_discover_of_link (hstar : (globSegments loc.format).head? = some .globstar)
    (hlink : Glob.linkAt d.tree (d.locate loc.directory) = true) (cases : List Case) :
    (loc.discover d).outcome ≠ .ok cases := by
  intro h
  obtain ⟨m, hm, s, hs⟩ := exists_recognized_of_discover h
  obtain ⟨hparts, hliterals⟩ :=
    Format.plain_glob_of_direct loc.valid (direct_of_recognize loc.valid hs)
  obtain ⟨x, hx, rfl⟩ := Glob.exists_walk_of_mem_search hparts hm
  obtain ⟨rest, hrest⟩ := List.head?_eq_some_iff.mp hstar
  obtain rfl : x = d.locate loc.directory := by
    unfold globSegments at hrest hliterals
    rw [hrest] at hx hliterals
    exact Glob.eq_of_mem_walk_link (fun m hm => hliterals m (List.mem_cons_of_mem _ hm)) hlink hx
  refine recognize_ne_of_locate_eq ?_ s hs
  have hself := @Disk.locate_join_relative d _ loc.directory_ne_nil [] (List.forall_mem_nil _)
  rwa [List.append_nil] at hself

/-- Whatever else is found has names, unless the glob begins with a globstar and the directory is a
link: only a globstar alone finds the directory itself. -/
theorem plain_of_mem_searched {place : Location} (hdirect : Direct loc.format)
    (hplace : d.tree.find (d.locate loc.directory) = .ok place)
    (hdir : d.tree.at? place = some .dir)
    (hlink : (globSegments loc.format).head? = some .globstar →
      Glob.linkAt d.tree (d.locate loc.directory) ≠ true)
    {m : Text} (hm : m ∈ loc.searched d) : ∀ n ∈ splitSlash m, Plain n := by
  obtain ⟨hparts, hliterals⟩ := Format.plain_glob_of_direct loc.valid hdirect
  obtain ⟨x, hx, rfl⟩ := Glob.exists_walk_of_mem_search hparts hm
  obtain ⟨⟨names, rfl, hnames⟩, hleaf⟩ := Glob.found_of_mem_walk (Glob.kept_below
    (fun m hm => ⟨(hliterals m hm).2.2, Format.slash_not_mem_of_literal_mem hm⟩) _) (.refl _) hx
  have hne : names ≠ [] := by
    rintro rfl
    rw [List.append_nil] at hx hleaf
    have hstars : globSegments loc.format = [.globstar] := by
      by_contra hstars
      exact Nat.lt_irrefl _ (Glob.length_lt_of_mem_walk hliterals (Or.inr hstars) hx)
    rw [Glob.leaf_iff_linkAt (d.plain_locate _) hplace hdir] at hleaf
    exact hlink (by rw [hstars]; rfl) hleaf
  rw [Glob.relative_append hne, Path.splitSlash_joinSlash hne fun n hn => (hnames n hn).2]
  exact fun n hn => (hnames n hn).1

/-- What is discovered comes of pairing what is found but the backups, below the directory. -/
theorem outcome_discover_searched (hplain : ∀ m ∈ loc.searched d, ∀ n ∈ splitSlash m, Plain n) :
    (loc.discover d).outcome =
      (pair d loc.directory loc.format
        (((loc.searched d).filter (!isBackup ·)).map (Path.join loc.directory))).outcome := by
  have hkept : ((loc.searched d).map (Path.join loc.directory)).filter (!isBackup ·) =
      ((loc.searched d).filter (!isBackup ·)).map (Path.join loc.directory) := by
    rw [List.filter_map]
    refine congrArg _ (List.filter_congr fun m hm => ?_)
    rw [Function.comp_apply, Path.isBackup_join loc.directory_ne_nil (hplain m hm)]
  rw [outcome_discover (candidates_eq loc.valid), ← hkept]
  rfl

/-- If the glob finds the same from two spellings of the directory, then the same test cases are
discovered from them. -/
theorem exists_discovered_of_searched_eq (hformat : loc.format = loc'.format)
    (hresolve : d.resolve loc.directory = d.resolve loc'.directory)
    (hsearched : loc.searched d = loc'.searched d)
    (hplain : ∀ m ∈ loc.searched d, ∀ n ∈ splitSlash m, Plain n) {cases : List Case}
    (h : (loc.discover d).outcome = .ok cases) :
    ∃ cases', (loc'.discover d).outcome = .ok cases' ∧ SameFiles d cases cases' := by
  obtain ⟨m, -, s, hs⟩ := exists_recognized_of_discover h
  obtain ⟨root, -, hroot, -⟩ := exists_resolve_of_recognize loc.valid hs
  have hplain' : ∀ m ∈ loc'.searched d, ∀ n ∈ splitSlash m, Plain n := hsearched ▸ hplain
  have hfile {m : Text} (hm : m ∈ loc.searched d) :
      d.resolve (Path.join loc.directory m) = d.resolve (Path.join loc'.directory m) :=
    Disk.resolve_below hroot (hresolve ▸ hroot) (Path.locate_join (hplain m hm) d.here)
      (Path.locate_join (hplain m hm) d.here)
  have hrecognize {m : Text} (hm : m ∈ loc.searched d) :
      recognize d loc.directory loc.format (Path.join loc.directory m) =
        recognize d loc'.directory loc'.format (Path.join loc'.directory m) := by
    rw [recognize_eq_bind loc.valid, recognize_eq_bind loc'.valid, hresolve, hfile hm, hformat]
  rw [outcome_discover_searched hplain] at h
  rw [outcome_discover_searched (hsearched ▸ hplain), ← hsearched]
  obtain ⟨slots, hslots, hassembled⟩ := exists_assembled_of_pair loc.valid h
  obtain ⟨hdangling, hne⟩ := (hslots.pair_eq_ok_iff loc.valid).mp ⟨cases, h⟩
  have hslots' : Recognized d loc'.directory loc'.format
      (((loc.searched d).filter (!isBackup ·)).map (Path.join loc'.directory)) slots := by
    refine ⟨?_, hslots.distinct⟩
    rw [← hslots.each, List.map_map, List.map_map]
    exact List.map_congr_left fun m hm => (hrecognize (List.mem_filter.mp hm).1).symm
  obtain ⟨cases', h'⟩ := (hslots'.pair_eq_ok_iff loc'.valid).mpr
    ⟨hdangling, fun hnil => hne (List.map_eq_nil_iff.mpr (List.map_eq_nil_iff.mp hnil))⟩
  obtain ⟨slots', hslots'', hassembled'⟩ := exists_assembled_of_pair loc'.valid h'
  obtain rfl := hslots'.slots_eq hslots''
  refine ⟨cases', h', hslots.sameFiles hassembled hassembled' ?_⟩
  rw [List.map_map, List.map_map]
  exact List.map_congr_left fun m hm => hfile (List.mem_filter.mp hm).1

/-- From two spellings of one directory the same test cases are discovered, up to the spelling of
their files, if the limit of links is met on the same ways. The exception is a glob that begins with
a globstar where one of the spellings is a link and the other is not: nothing is discovered from a
link with such a glob. -/
theorem discover_respelled {place : Location} (hformat : loc.format = loc'.format)
    (hplace : d.tree.find (d.locate loc.directory) = .ok place)
    (hplace' : d.tree.find (d.locate loc'.directory) = .ok place)
    (hdir : d.tree.at? place = some .dir)
    (hresolve : d.resolve loc.directory = d.resolve loc'.directory)
    (hlimit : Glob.LimitedAlike d.tree (globSegments loc.format).length (d.locate loc.directory)
      (d.locate loc'.directory)) :
    ((globSegments loc.format).head? = some .globstar →
      Glob.linkAt d.tree (d.locate loc.directory) = true →
        ∀ cases, (loc.discover d).outcome ≠ .ok cases) ∧
    (((globSegments loc.format).head? = some .globstar →
        Glob.linkAt d.tree (d.locate loc.directory) =
          Glob.linkAt d.tree (d.locate loc'.directory)) →
      ((∃ cases, (loc.discover d).outcome = .ok cases) ↔
        ∃ cases, (loc'.discover d).outcome = .ok cases) ∧
      ∀ cases cases', (loc.discover d).outcome = .ok cases →
        (loc'.discover d).outcome = .ok cases' → SameFiles d cases cases') := by
  refine ⟨not_discover_of_link, fun hlink => ?_⟩
  have hsearched (hdirect : Direct loc.format) : loc.searched d = loc'.searched d := by
    obtain ⟨hparts, hliterals⟩ := Format.plain_glob_of_direct loc.valid hdirect
    unfold searched
    rw [← hformat]
    exact Glob.search_respelled (Glob.patterns_of_plain hparts) rfl hliterals
      (d.plain_locate _) (d.plain_locate _) hplace hplace' hdir hlimit hlink
  have hforward {cases : List Case} (h : (loc.discover d).outcome = .ok cases) :
      ∃ cases', (loc'.discover d).outcome = .ok cases' ∧ SameFiles d cases cases' :=
    have hdirect := direct_of_discover h
    exists_discovered_of_searched_eq hformat hresolve (hsearched hdirect)
      (fun _ => plain_of_mem_searched hdirect hplace hdir
        fun hstar hlinkAt => not_discover_of_link hstar hlinkAt cases h) h
  refine ⟨⟨?_, ?_⟩, fun cases cases' h h' => ?_⟩
  · rintro ⟨cases, h⟩
    obtain ⟨cases', h', -⟩ := hforward h
    exact ⟨cases', h'⟩
  · rintro ⟨cases, h⟩
    have hdirect := direct_of_discover h
    obtain ⟨cases', h', -⟩ := exists_discovered_of_searched_eq hformat.symm hresolve.symm
      (hsearched (hformat ▸ hdirect)).symm
      (fun _ => plain_of_mem_searched hdirect hplace' hdir
        fun hstar hlinkAt => not_discover_of_link hstar hlinkAt cases h) h
    exact ⟨cases', h'⟩
  · obtain ⟨cases'', h'', hsame⟩ := hforward h
    obtain rfl := Except.ok.inj (h'.symm.trans h'')
    exact hsame

/-- A disk with the directory `d`, the file `a.in` in it, and the link `l` to it, seen from its
root. -/
def spelledDisk : Disk :=
  (Disk.bare [] Disk.named_root).addAll
    [.ofPath ['d', '/', 'a', '.', 'i', 'n'], ⟨['l'], .link ['d']⟩]

/-- The locator of test cases in a directory. -/
def inside (directory format : Text) (hdirectory : directory ≠ [])
    (hformat : Format.validate format = .ok ()) : Locator :=
  ⟨directory, format, hdirectory, hformat⟩

theorem find_spelledDisk :
    spelledDisk.tree.find (spelledDisk.locate ['d']) = .ok [['d']] ∧
      spelledDisk.tree.find (spelledDisk.locate ['l']) = .ok [['d']] ∧
      spelledDisk.tree.at? [['d']] = some .dir := by
  decide +kernel

/-- There are no links in the directory. -/
theorem no_links_spelledDisk (way : Location) (target : Text) :
    spelledDisk.tree.at? ([['d']] ++ way) ≠ some (.link target) := by
  have hentries : spelledDisk.tree.entries =
      [([['l']], .link ['d']), ([['d'], ['a', '.', 'i', 'n']], .file), ([['d']], .dir)] := rfl
  rw [ne_eq, FileTree.at?_eq_some_iff, hentries]
  simp

/-- The input is discovered by way of the link and in the directory, with the same resolved path. -/
theorem discover_respelled_link :
    ((inside ['l'] Format.default (by decide) rfl).discover spelledDisk).outcome =
        .ok [⟨['a'], ['l', '/', 'a', '.', 'i', 'n'], none⟩] ∧
      ∃ cases, ((inside ['d'] Format.default (by decide) rfl).discover spelledDisk).outcome =
          .ok cases ∧
        SameFiles spelledDisk [⟨['a'], ['l', '/', 'a', '.', 'i', 'n'], none⟩] cases := by
  obtain ⟨hplace, hplace', hdir⟩ := find_spelledDisk
  have hcases : ((inside ['l'] Format.default (by decide) rfl).discover spelledDisk).outcome =
      .ok [⟨['a'], ['l', '/', 'a', '.', 'i', 'n'], none⟩] := by
    decide +kernel
  obtain ⟨-, hsame⟩ := @discover_respelled (inside ['l'] Format.default (by decide) rfl)
    (inside ['d'] Format.default (by decide) rfl) spelledDisk [['d']] rfl hplace' hplace hdir rfl
    (Glob.limitedAlike_of_no_links hplace' hplace hdir no_links_spelledDisk)
  obtain ⟨hiff, hfiles⟩ := hsame fun hstar => absurd hstar (by decide)
  obtain ⟨cases, hdirect⟩ := hiff.mp ⟨_, hcases⟩
  exact ⟨hcases, cases, hdirect, hfiles _ _ hcases hdirect⟩

/-- With a format that finds files at any depth the input is discovered in the directory, but
nothing by way of the link. -/
theorem discover_not_respelled :
    spelledDisk.resolve ['l'] = .ok ['/', 'd'] ∧ spelledDisk.resolve ['d'] = .ok ['/', 'd'] ∧
      spelledDisk.tree.at? [['d']] = some .dir ∧
      ((inside ['d'] ['%', 's', '%', 'e'] (by decide) rfl).discover spelledDisk).outcome =
        .ok [⟨['a', '.'], ['d', '/', 'a', '.', 'i', 'n'], none⟩] ∧
      ((inside ['l'] ['%', 's', '%', 'e'] (by decide) rfl).discover spelledDisk).outcome =
        .error (.unrecognizedFile ['l'] ['%', 's', '%', 'e']) := by
  refine ⟨rfl, rfl, rfl, ?_, ?_⟩ <;> decide +kernel

end Locator

end CaseFiles
