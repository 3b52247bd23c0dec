import LiveTree.Project.Module
import LiveTree.Proofs.Text.Dotted
import Mathlib.Data.List.Induction
import Mathlib.Data.List.TakeWhile

/-! Where modules lie. From a script one climbs through the folders around it as long as they are
packages; the folder where this ends is the one in which the import starts, and the dotted name
leads from there back to the script. A script that goes by the marker's name stands for its folder,
whatever its suffix, so that the folder counts as a package even when it has no marker file. -/

namespace LiveTree

namespace Location

variable {folder home : Location} {name : String} {names : List String}

/-- The folders that names lead through, from a folder on. -/
def through (folder : Location) : List String → List Location
  | [] => []
  | name :: rest => folder.entry name :: (folder.entry name).through rest

@[simp] theorem parent_entry : (folder.entry name).parent = folder := by
  simp [parent, entry]

@[simp] theorem name_entry : (folder.entry name).name = name := by
  simp [Location.name, entry]

theorem eq_top_or_entry (l : Location) :
    l = ⟨l.start, []⟩ ∨ ∃ folder name, l = entry folder name := by
  obtain ⟨start, names⟩ := l
  rcases List.eq_nil_or_concat names with rfl | ⟨names, last, rfl⟩
  · exact .inl rfl
  · exact .inr ⟨⟨start, names⟩, last, by rw [entry, List.concat_eq_append]⟩

theorem foldl_entry : names.foldl entry folder = ⟨folder.start, folder.names ++ names⟩ := by
  induction names generalizing folder with
  | nil => simp
  | cons name rest ih => simp [ih, entry]

theorem through_append_singleton : folder.through (names ++ [name]) =
    folder.through names ++ [(names.foldl entry folder).entry name] := by
  induction names generalizing folder with
  | nil => rfl
  | cons first rest ih =>
    rw [List.cons_append, through, ih, through, List.cons_append, List.foldl_cons]

/-- Around an entry there is its folder, and what is around that. -/
theorem parents_entry (folder : Location) (name : String) :
    (folder.entry name).parents = folder :: folder.parents := by
  have htake : ∀ n ∈ List.range folder.names.length,
      (⟨folder.start, (folder.names ++ [name]).take n⟩ : Location) =
        ⟨folder.start, folder.names.take n⟩ := fun n hn => by
    rw [List.take_append_of_le_length (Nat.le_of_lt (List.mem_range.mp hn))]
  simp only [parents, entry, List.length_append, List.length_singleton, List.range_succ,
    List.reverse_append, List.reverse_singleton, List.singleton_append, List.map_cons,
    List.take_left, List.map_reverse, List.map_congr_left htake]

/-! ### Suffixes -/

/-- Whether a text is nothing, or a dot and an ending without dots. -/
def IsSuffix (suffix : String) : Prop :=
  suffix = "" ∨ ∃ ending, ending ≠ "" ∧ '.' ∉ ending.toList ∧ suffix = "." ++ ending

theorem forall_mem_reverse_ne_dot {cs : List Char} (h : '.' ∉ cs) :
    ∀ c ∈ cs.reverse, decide (c ≠ '.') = true :=
  fun _ hc => decide_eq_true fun e => h (e ▸ List.mem_reverse.mp hc)

theorem withoutSuffix_of_no_dot (h : '.' ∉ name.toList) : withoutSuffix name = name := by
  have hwhole : name.toList.reverse.takeWhile (· ≠ '.') = name.toList.reverse :=
    List.takeWhile_eq_self_iff.mpr (forall_mem_reverse_ne_dot h)
  simp only [withoutSuffix, hwhole, List.reverse_reverse, Nat.sub_self, Nat.zero_sub,
    List.take_zero, List.isEmpty_nil, Bool.or_true, if_true]

/-- What is left of a name without its suffix is what stands before the suffix. -/
theorem withoutSuffix_append {stem suffix : String} (hne : stem ≠ "") (hstem : '.' ∉ stem.toList)
    (hsuffix : IsSuffix suffix) : withoutSuffix (stem ++ suffix) = stem := by
  rcases hsuffix with rfl | ⟨ending, hending, hdot, rfl⟩
  · rw [String.append_empty, withoutSuffix_of_no_dot hstem]
  · have hcs : (stem ++ ("." ++ ending)).toList = stem.toList ++ '.' :: ending.toList := by simp
    have hends : (stem.toList ++ '.' :: ending.toList).reverse.takeWhile (· ≠ '.') =
        ending.toList.reverse := by
      rw [List.reverse_append, List.reverse_cons, List.append_assoc,
        List.takeWhile_append_of_pos (forall_mem_reverse_ne_dot hdot),
        List.singleton_append, List.takeWhile_cons_of_neg (by simp), List.append_nil]
    have hkept : (stem.toList ++ '.' :: ending.toList).take
        ((stem.toList ++ '.' :: ending.toList).length - ending.toList.length - 1) =
          stem.toList := by
      rw [List.length_append, List.length_cons, Nat.add_sub_assoc (by omega)]
      simp
    simp only [withoutSuffix, hcs, hends, List.reverse_reverse, hkept]
    rw [if_neg (by simp [hending, hne]), String.ofList_toList]

/-- The names of folders without dots are read off the folders. -/
theorem map_stem_through (h : ∀ name ∈ names, '.' ∉ name.toList) :
    (folder.through names).map stem = names := by
  induction names generalizing folder with
  | nil => rfl
  | cons name rest ih =>
    obtain ⟨hname, hrest⟩ := List.forall_mem_cons.mp h
    have hstem : (folder.entry name).stem = name := by
      rw [stem, name_entry, withoutSuffix_of_no_dot hname]
    rw [through, List.map_cons, hstem, ih hrest]

/-! ### Climbing -/

/-- Whether names lead from a folder that does not count through folders that do, and so to a given
place: the folder is the nearest one, at or around the place, that does not count. -/
structure Climb (counts : Location → Prop) (home folder : Location) (names : List String) :
    Prop where
  arrives : names.foldl entry folder = home
  gap : ¬ counts folder
  unbroken : ∀ l ∈ folder.through names, counts l

namespace Climb

variable {counts counts' : Location → Prop}

theorem congr (h : Climb counts home folder names) (hcounts : ∀ l, counts' l ↔ counts l) :
    Climb counts' home folder names :=
  ⟨h.arrives, mt (hcounts folder).mp h.gap, fun l hl => (hcounts l).mpr (h.unbroken l hl)⟩

theorem names_eq (h : Climb counts home folder names) : home.names = folder.names ++ names := by
  rw [← h.arrives, foldl_entry]

theorem through_append (h : Climb counts home folder names) (name : String) :
    folder.through (names ++ [name]) = folder.through names ++ [home.entry name] := by
  rw [through_append_singleton, h.arrives]

/-- A climb goes on to an entry that counts. More may count than before, but not the folder where
the climb starts. -/
theorem append (h : Climb counts home folder names) (hcounts : ∀ l, counts l → counts' l)
    (hgap : ¬ counts' folder) (hname : counts' (home.entry name)) :
    Climb counts' (home.entry name) folder (names ++ [name]) where
  arrives := by
    rw [List.foldl_append, h.arrives]
    rfl
  gap := hgap
  unbroken l hl := by
    rw [h.through_append, List.mem_append, List.mem_singleton] at hl
    rcases hl with hl | rfl
    · exact hcounts l (h.unbroken l hl)
    · exact hname

end Climb

/-- As long as the top does not count, the run of what counts, at and around a place, is the way
down from the nearest folder that does not. -/
theorem exists_climb {counts : Location → Bool} (htop : counts ⟨home.start, []⟩ = false) :
    ∃ folder names, Climb (counts ·) home folder names ∧
      ((home :: home.parents).takeWhile counts).reverse = folder.through names := by
  obtain ⟨start, names⟩ := home
  induction names using List.reverseRecOn with
  | nil =>
    refine ⟨⟨start, []⟩, [], ⟨rfl, by simp [htop], by simp [through]⟩, ?_⟩
    simp [htop, through]
  | append_singleton names name ih =>
    have hentry : (⟨start, names ++ [name]⟩ : Location) = entry ⟨start, names⟩ name := rfl
    rw [hentry, parents_entry]
    by_cases hcounts : counts (entry ⟨start, names⟩ name) = true
    · obtain ⟨folder, inner, hclimb, hrun⟩ := ih htop
      refine ⟨folder, inner ++ [name], hclimb.append (fun _ => id) hclimb.gap hcounts, ?_⟩
      rw [List.takeWhile_cons_of_pos hcounts, List.reverse_cons, hrun, hclimb.through_append]
    · refine ⟨entry ⟨start, names⟩ name, [], ⟨rfl, hcounts, by simp [through]⟩, ?_⟩
      rw [List.takeWhile_cons_of_neg hcounts]
      rfl

end Location

namespace ModulePlace

variable {p : ModulePlace} {l : Location} {rest : List Location}

theorem folder_of_locations (h : p.locations = l :: rest) : p.folder = l.parent := by
  obtain ⟨_ | ⟨first, packages⟩, last⟩ := p <;>
  · obtain ⟨rfl, -⟩ := List.cons.inj h
    rfl

end ModulePlace

namespace Disk

variable (d : Disk)

/-- Whether a script is the file that goes by the marker's name, with whatever suffix. It stands
for the folder that it is in. -/
def StandsForFolder (file : Location) : Prop := d.isFile file = true ∧ file.stem = markerStem

instance (file : Location) : Decidable (d.StandsForFolder file) :=
  inferInstanceAs (Decidable (_ ∧ _))

/-- Whether a folder counts as a package for a script: it has a marker file, or the script stands
for it. -/
def CountsFor (file folder : Location) : Prop :=
  d.isPackage folder = true ∨ (d.StandsForFolder file ∧ folder = file.parent)

instance (file folder : Location) : Decidable (d.CountsFor file folder) :=
  inferInstanceAs (Decidable (_ ∨ _))

variable {d} {script file home : Location} {name : String}

theorem countsFor_iff_of_not_stands (h : ¬ d.StandsForFolder file) (folder : Location) :
    d.CountsFor file folder ↔ d.isPackage folder = true := by
  simp [CountsFor, h]

theorem modulePlace_of_stands (hscript : script.resolve d.working = file)
    (h : d.StandsForFolder file) : d.modulePlace script =
      ⟨(file.parent.parents.takeWhile d.isPackage).reverse, file.parent⟩ := by
  simp [modulePlace, hscript, h.1, h.2]

theorem modulePlace_of_not_stands (hscript : script.resolve d.working = file)
    (h : ¬ d.StandsForFolder file) :
    d.modulePlace script = ⟨(file.parents.takeWhile d.isPackage).reverse, file⟩ := by
  have hnot : ¬ (d.isFile file = true ∧ file.stem = markerStem) := h
  simp only [modulePlace, hscript, Bool.and_eq_true, decide_eq_true_eq, if_neg hnot]

/-- The place of a script that stands for its folder is the way down to the folder, from the nearest
one around it that does not count. -/
theorem exists_climb_of_stands (hscript : script.resolve d.working = home.entry name)
    (htop : ¬ d.CountsFor (home.entry name) ⟨home.start, []⟩)
    (hstands : d.StandsForFolder (home.entry name)) :
    ∃ folder names, Location.Climb (d.CountsFor (home.entry name)) home folder names ∧
      (d.modulePlace script).locations = folder.through names := by
  rw [modulePlace_of_stands hscript hstands, Location.parent_entry]
  have hhome : d.CountsFor (home.entry name) home := .inr ⟨hstands, Location.parent_entry.symm⟩
  -- as the script's folder counts, it is not the top, and lies in another one
  obtain hnil | ⟨up, last, rfl⟩ := home.eq_top_or_entry
  · exact absurd (hnil ▸ hhome) htop
  have htop' : d.isPackage ⟨up.start, []⟩ = false := Bool.eq_false_iff.mpr fun h => htop (.inl h)
  obtain ⟨folder, names, hclimb, hrun⟩ := Location.exists_climb htop'
  have hgap : ¬ d.CountsFor ((up.entry last).entry name) folder := by
    rintro (h | ⟨-, h⟩)
    · exact hclimb.gap h
    · rw [Location.parent_entry] at h
      have hlength := congrArg (fun l => l.names.length) h
      simp only [Location.entry, hclimb.names_eq, List.length_append,
        List.length_singleton] at hlength
      omega
  refine ⟨folder, names ++ [last], hclimb.append (fun _ => .inl) hgap hhome, ?_⟩
  rw [ModulePlace.locations, Location.parents_entry, hrun, hclimb.through_append]

/-- The place of any other script is the way down to its folder, and the script. -/
theorem exists_climb_of_not_stands (hscript : script.resolve d.working = home.entry name)
    (htop : ¬ d.CountsFor (home.entry name) ⟨home.start, []⟩)
    (hstands : ¬ d.StandsForFolder (home.entry name)) :
    ∃ folder names, Location.Climb (d.CountsFor (home.entry name)) home folder names ∧
      (d.modulePlace script).locations = folder.through names ++ [home.entry name] := by
  have htop' : d.isPackage ⟨home.start, []⟩ = false := Bool.eq_false_iff.mpr fun h => htop (.inl h)
  obtain ⟨folder, names, hclimb, hrun⟩ := Location.exists_climb htop'
  refine ⟨folder, names, hclimb.congr (countsFor_iff_of_not_stands hstands), ?_⟩
  rw [modulePlace_of_not_stands hscript hstands, ModulePlace.locations, Location.parents_entry,
    hrun]

theorem exists_climb_locations (hscript : script.resolve d.working = home.entry name)
    (htop : ¬ d.CountsFor (home.entry name) ⟨home.start, []⟩) :
    ∃ folder names, Location.Climb (d.CountsFor (home.entry name)) home folder names ∧
      (d.modulePlace script).locations = folder.through names ++
        if d.StandsForFolder (home.entry name) then [] else [home.entry name] := by
  by_cases hstands : d.StandsForFolder (home.entry name)
  · obtain ⟨folder, names, hclimb, hlocations⟩ := exists_climb_of_stands hscript htop hstands
    exact ⟨folder, names, hclimb, by rw [hlocations, if_pos hstands, List.append_nil]⟩
  · obtain ⟨folder, names, hclimb, hlocations⟩ := exists_climb_of_not_stands hscript htop hstands
    exact ⟨folder, names, hclimb, by rw [hlocations, if_neg hstands]⟩

/-- The folder of a script that stands for it counts, so the climb goes through it. -/
theorem names_ne_nil_of_stands {folder : Location} {names : List String}
    (hclimb : Location.Climb (d.CountsFor (home.entry name)) home folder names)
    (hstands : d.StandsForFolder (home.entry name)) : names ≠ [] := by
  rintro rfl
  refine hclimb.gap (.inr ⟨hstands, ?_⟩)
  rw [Location.parent_entry, ← hclimb.arrives, List.foldl_nil]

/-- A marker file with the suffix of modules stands for a folder that has a marker file. -/
theorem countsFor_iff_isPackage
    (h : d.StandsForFolder (home.entry name) → name = markerStem ++ moduleSuffix)
    (folder : Location) :
    d.CountsFor (home.entry name) folder ↔ d.isPackage folder = true := by
  refine ⟨?_, .inl⟩
  rintro (hpackage | ⟨hstands, rfl⟩)
  · exact hpackage
  · rw [Location.parent_entry, isPackage, ← h hstands]
    exact hstands.1

/-- Where the module of a script lies, if no folder around the script has a dot in its name and the
script has none but that of its suffix, and if the top folder does not count as a package: the
packages are the unbroken run of folders that count, up from the script's own folder, the import
starts in the nearest folder that does not, and the parts of the dotted name lead from there to the
script without its suffix, or to the folder that it stands for. Unless the script stands for its
folder with another suffix than a marker file's, the folders that count are those that have a marker
file. -/
theorem modulePlace_leads_back (d : Disk) (script home : Location) (stem suffix : String)
    (hscript : script.resolve d.working = home.entry (stem ++ suffix))
    (hhome : ∀ folder ∈ home.names, '.' ∉ folder.toList)
    (hstem : stem ≠ "" ∧ '.' ∉ stem.toList) (hsuffix : Location.IsSuffix suffix)
    (htop : ¬ d.CountsFor (home.entry (stem ++ suffix)) ⟨.top, []⟩) :
    let file := home.entry (stem ++ suffix)
    let place := d.modulePlace script
    ((d.StandsForFolder file → suffix = moduleSuffix) →
      ∀ l, d.CountsFor file l ↔ d.isPackage l = true) ∧
    ∃ folder names, Location.Climb (d.CountsFor file) home folder names ∧
      place.locations = folder.through names ++ (if d.StandsForFolder file then [] else [file]) ∧
      place.folder = folder ∧
      (Text.dotted place.name).foldl Location.entry folder =
        if d.StandsForFolder file then home else home.entry stem := by
  intro file place
  have hfile : file.stem = stem := by
    rw [Location.stem, Location.name_entry, Location.withoutSuffix_append hstem.1 hstem.2 hsuffix]
  have hstart : home.start = .top := (congrArg Location.start hscript).symm
  obtain ⟨folder, names, hclimb, hlocations⟩ := exists_climb_locations hscript (hstart ▸ htop)
  refine ⟨fun h => countsFor_iff_isPackage fun hstands => ?_, folder, names, hclimb, hlocations,
    ?_, ?_⟩
  · rw [← hstands.2, hfile, h hstands]
  · cases names with
    | nil =>
      have hstands : ¬ d.StandsForFolder file := fun h => names_ne_nil_of_stands hclimb h rfl
      rw [if_neg hstands] at hlocations
      rw [ModulePlace.folder_of_locations hlocations, Location.parent_entry, ← hclimb.arrives,
        List.foldl_nil]
    | cons first rest =>
      rw [ModulePlace.folder_of_locations hlocations, Location.parent_entry]
  · have hdots : ∀ name ∈ names, '.' ∉ name.toList := fun name hname =>
      hhome name (hclimb.names_eq ▸ List.mem_append_right _ hname)
    rw [ModulePlace.name, hlocations, List.map_append, Location.map_stem_through hdots]
    by_cases hstands : d.StandsForFolder file
    · rw [if_pos hstands, if_pos hstands, List.map_nil, List.append_nil,
        Text.dotted_undotted hdots (names_ne_nil_of_stands hclimb hstands), hclimb.arrives]
    · have hnames : ∀ name ∈ names ++ [stem], '.' ∉ name.toList := by
        simpa [or_imp, forall_and, hstem.2] using hdots
      rw [if_neg hstands, if_neg hstands, List.map_singleton, hfile,
        Text.dotted_undotted hnames (by simp), List.foldl_append, hclimb.arrives]
      rfl

/-- A project with a package that has a package in it, and a folder with a compiled marker file
alone. -/
def shop : Disk :=
  let withFile (d : Disk) (names : List String) : Disk := d.put ("proj" :: names) (.file (.text ""))
  [["shop", "__init__.py"], ["shop", "rules", "__init__.py"], ["shop", "rules", "ops.py"],
    ["ops", "__init__.pyc"]].foldl withFile (empty ⟨.top, ["proj"]⟩)

/-- The names of a script in the inner package, and of this package, lead back to them. -/
theorem shop_leads_back :
    (∃ names, Location.Climb (shop.CountsFor ⟨.top, ["proj", "shop", "rules", "ops.py"]⟩)
      ⟨.top, ["proj", "shop", "rules"]⟩
      (shop.modulePlace ⟨.here, ["shop", "rules", "ops.py"]⟩).folder names) ∧
    (Text.dotted (shop.modulePlace ⟨.here, ["shop", "rules", "ops.py"]⟩).name).foldl Location.entry
        (shop.modulePlace ⟨.here, ["shop", "rules", "ops.py"]⟩).folder =
      ⟨.top, ["proj", "shop", "rules", "ops"]⟩ ∧
    (Text.dotted (shop.modulePlace ⟨.here, ["shop", "rules", "__init__.py"]⟩).name).foldl
        Location.entry (shop.modulePlace ⟨.here, ["shop", "rules", "__init__.py"]⟩).folder =
      ⟨.top, ["proj", "shop", "rules"]⟩ := by
  have hsuffix : Location.IsSuffix ".py" := .inr ⟨"py", by decide, by decide, rfl⟩
  obtain ⟨-, _, names, hclimb, -, rfl, hscript⟩ := modulePlace_leads_back shop
    ⟨.here, ["shop", "rules", "ops.py"]⟩ ⟨.top, ["proj", "shop", "rules"]⟩ "ops" ".py" (by decide)
    (by decide) (by decide) hsuffix (by decide)
  obtain ⟨-, _, _, -, -, rfl, hpackage⟩ := modulePlace_leads_back shop
    ⟨.here, ["shop", "rules", "__init__.py"]⟩ ⟨.top, ["proj", "shop", "rules"]⟩ "__init__" ".py"
    (by decide) (by decide) (by decide) hsuffix (by decide)
  exact ⟨⟨names, hclimb⟩, hscript.trans (by decide), hpackage.trans (by decide)⟩

/-- The folder of a compiled marker file is climbed through although it has no marker file, so that
its nearest folder without one is not where the import starts. No name has a dot but that of the
suffix. -/
theorem compiled_marker_climbed :
    (⟨.here, ["ops", "__init__.pyc"]⟩ : Location).resolve shop.working =
      (⟨.top, ["proj", "ops"]⟩ : Location).entry ("__init__" ++ ".pyc") ∧
    (∀ folder ∈ ["proj", "ops"], '.' ∉ folder.toList) ∧ '.' ∉ "__init__".toList ∧
    Location.IsSuffix ".pyc" ∧ shop.isPackage ⟨.top, []⟩ = false ∧
    ¬ ∃ names, Location.Climb (shop.isPackage ·) ⟨.top, ["proj", "ops"]⟩
      (shop.modulePlace ⟨.here, ["ops", "__init__.pyc"]⟩).folder names := by
  refine ⟨by decide, by decide, by decide, .inr ⟨"pyc", by decide, by decide, rfl⟩, by decide, ?_⟩
  rintro ⟨names, hclimb⟩
  have hfolder : (shop.modulePlace ⟨.here, ["ops", "__init__.pyc"]⟩).folder = ⟨.top, ["proj"]⟩ := by
    decide
  rw [hfolder] at hclimb
  have hnames : ["proj"] ++ ["ops"] = ["proj"] ++ names := hclimb.names_eq
  obtain rfl := List.append_cancel_left hnames
  exact absurd (hclimb.unbroken _ (List.mem_singleton.mpr rfl)) (by decide)

end Disk

end LiveTree
