import LiveTree.Project.Config

/-! Which settings give a project a configuration. Every level of the settings may hold anything, so
each has its own rule, and a level that breaks it is refused in words that say which one it was. One
level has no such words: what the project's table should be in may be something else than a table.
A location in the settings stands for itself when it starts at the top, and is placed in the
project's folder otherwise. -/

namespace LiveTree

variable {ν : Type} {root l : Location} {text : String} {d settings : Data ν}
  {source : RegistrySource} {config : Config}

/-- Whether data are a table. -/
def Data.IsTable (d : Data ν) : Prop := ∃ entries, d = .dict entries

/-- Whether data are a text. -/
def Data.IsText (d : Data ν) : Prop := ∃ s, d = .str s

/-! ### Rules -/

/-- Whether a reading goes by a rule: what keeps to the rule gives what is meant, and what breaks it
is refused in words. -/
inductive GoesBy {α : Type} (rule : Prop) (meant : α → Prop) : Except ConfigFault α → Prop
  | given {a : α} (hrule : rule) (ha : meant a) : GoesBy rule meant (.ok a)
  | refused {e : ConfigFault} {words : String} (hrule : ¬ rule) (he : e.message? = some words) :
    GoesBy rule meant (.error e)

namespace GoesBy

variable {α β : Type} {rule rule' : Prop} {meant meant' : α → Prop} {r : Except ConfigFault α}

theorem imp (h : GoesBy rule meant r) (hrule : rule ↔ rule') (hmeant : ∀ a, meant a → meant' a) :
    GoesBy rule' meant' r := by
  cases h with
  | given h ha => exact .given (hrule.mp h) (hmeant _ ha)
  | refused h he => exact .refused (mt hrule.mpr h) he

/-- One reading after another goes by both rules. -/
theorem bind {meant' : β → Prop} {f : α → Except ConfigFault β} (h : GoesBy rule meant r)
    (hf : ∀ a, meant a → GoesBy rule' meant' (f a)) : GoesBy (rule ∧ rule') meant' (r >>= f) := by
  cases h with
  | given h ha => exact (hf _ ha).imp (by simp [h]) fun _ => id
  | refused h he => exact .refused (fun hboth => h hboth.1) he

theorem map {meant' : β → Prop} {f : α → β} (h : GoesBy rule meant r)
    (hf : ∀ a, meant a → meant' (f a)) : GoesBy rule meant' (r >>= fun a => .ok (f a)) := by
  cases h with
  | given h ha => exact .given h (hf _ ha)
  | refused h he => exact .refused h he

/-- What keeps to the rule gives something that is meant. -/
theorem exists_ok (h : GoesBy rule meant r) (hrule : rule) : ∃ a, r = .ok a ∧ meant a := by
  cases h with
  | given _ ha => exact ⟨_, rfl, ha⟩
  | refused hnot _ => exact absurd hrule hnot

end GoesBy

/-! ### Locations -/

namespace Location

/-- Whether a location is the one that a text gives in a project. -/
inductive GivenBy (root : Location) (text : String) : Location → Prop
  | kept (h : text.toList.head? = some '/') : GivenBy root text (ofText text)
  | placed (h : text.toList.head? ≠ some '/') :
    GivenBy root text ⟨root.start, root.names ++ (ofText text).names⟩

theorem startOf_eq_here_iff {cs : List Char} : startOf cs = .here ↔ cs.head? ≠ some '/' := by
  cases cs with
  | nil => simp [startOf]
  | cons c cs =>
    by_cases hc : c = '/'
    · subst hc
      unfold startOf
      split <;> simp_all
    · simp [startOf, hc]

theorem isAbsolute_ofText : (ofText text).isAbsolute = true ↔ text.toList.head? = some '/' := by
  simp [isAbsolute, ofText, startOf_eq_here_iff]

theorem GivenBy.unique {l l' : Location} (h : GivenBy root text l) (h' : GivenBy root text l') :
    l = l' := by
  cases h with
  | kept h =>
    cases h' with
    | kept => rfl
    | placed h' => exact absurd h h'
  | placed h =>
    cases h' with
    | kept h' => exact absurd h' h
    | placed => rfl

/-- Seeing the location of a text from the project's folder gives the one meant. -/
theorem givenBy_within (root : Location) (text : String) :
    GivenBy root text ((ofText text).within root) := by
  unfold within
  by_cases h : text.toList.head? = some '/'
  · rw [if_pos (isAbsolute_ofText.mpr h)]
    exact .kept h
  · rw [if_neg (mt isAbsolute_ofText.mp h)]
    exact .placed h

end Location

/-! ### Registries -/

namespace RegistrySource

/-- Whether data have the form of a registry source: a text with a colon, or a table with the text
of a script and with nothing or a text as the name. -/
inductive Shaped : Data ν → Prop
  | module {path : String} (h : ':' ∈ path.toList) : Shaped (.str path)
  | script {entries : List (String × Data ν)}
    (hscript : ∃ script, (Data.dict entries).get? "script" = some (.str script))
    (hname : ∀ n, (Data.dict entries).get? "name" = some n → n = .null ∨ n.IsText) :
    Shaped (.dict entries)

/-- Whether data give a registry source to a project. -/
inductive GivenBy (root : Location) : Data ν → RegistrySource → Prop
  | module {path : String} (h : ':' ∈ path.toList) : GivenBy root (.str path) (.module path)
  | script {entries : List (String × Data ν)} {script : String} {l : Location}
    {name : Option String} (hscript : (Data.dict entries).get? "script" = some (.str script))
    (hl : Location.GivenBy root script l)
    (hname : ((Data.dict entries).get? "name").getD .null = name.elim .null .str) :
    GivenBy root (.dict entries) (.script l name)

theorem GivenBy.unique {source source' : RegistrySource} (h : GivenBy root d source)
    (h' : GivenBy root d source') : source = source' := by
  cases h with
  | module => cases h'; rfl
  | @script entries script l name hscript hl hname =>
    cases h' with
    | @script _ script' l' name' hscript' hl' hname' =>
      obtain rfl : script = script' := by simpa using hscript.symm.trans hscript'
      obtain rfl : name = name' := by
        have hnames := hname.symm.trans hname'
        cases name <;> cases name' <;> simp_all
      rw [hl.unique hl']

theorem scriptOf_goesBy (root : Location) (table : Data ν) :
    GoesBy (∃ script, table.get? "script" = some (.str script))
      (fun l => ∃ script, table.get? "script" = some (.str script) ∧ Location.GivenBy root script l)
      (scriptOf root table) := by
  unfold scriptOf
  split
  · rename_i script h
    exact .given ⟨script, h⟩ ⟨script, h, Location.givenBy_within root script⟩
  · rename_i h
    exact .refused (not_exists.mpr h) rfl

theorem nameOf_goesBy (table : Data ν) :
    GoesBy (∀ n, table.get? "name" = some n → n = .null ∨ n.IsText)
      (fun name => (table.get? "name").getD .null = name.elim .null .str) (nameOf table) := by
  unfold nameOf
  split
  · rename_i h
    exact .given (by simp [h]) (by simp [h])
  · rename_i h
    exact .given (by simp [h]) (by simp [h])
  · rename_i s h
    exact .given (by simp [h, Data.IsText]) (by simp [h])
  · rename_i n hnull htext h
    refine .refused (fun hrule => ?_) rfl
    rcases hrule n h with hn | ⟨s, hn⟩
    · exact hnull hn
    · exact htext s hn

/-- Data of the form of a registry source give one, and all other data are refused. -/
theorem ofData_goesBy (root : Location) (d : Data ν) :
    GoesBy (Shaped d) (GivenBy root d) (ofData root d) := by
  cases d with
  | str path =>
    rw [ofData]
    by_cases h : ':' ∈ path.toList
    · rw [if_pos (by simpa [String.contains_char_eq] using h)]
      exact .given (.module h) (.module h)
    · rw [if_neg (by simpa [String.contains_char_eq] using h)]
      refine .refused (fun hshaped => ?_) rfl
      cases hshaped with
      | module h' => exact h h'
  | dict entries =>
    refine ((scriptOf_goesBy root (.dict entries)).bind fun l hl =>
      (nameOf_goesBy (.dict entries)).map fun name hname => ?_).imp ?_ fun _ => id
    · obtain ⟨script, hscript, hl⟩ := hl
      exact .script hscript hl hname
    · constructor
      · rintro ⟨hscript, hname⟩
        exact .script hscript hname
      · rintro (_ | ⟨hscript, hname⟩)
        exact ⟨hscript, hname⟩
  | _ => exact .refused nofun rfl

end RegistrySource

/-! ### Settings -/

namespace Config

/-- What stands under a name in the table of the project, if there is such a table. -/
def part (settings : Data ν) (name : String) : Option (Data ν) :=
  ((settings.get? outerTable).bind (·.get? innerTable)).bind (·.get? name)

/-- Whether settings have a form that gives a configuration: the project's table, if there is one,
is a table, and what it has as the registry and as the tree has the form of these. -/
structure Shaped (settings : Data ν) : Prop where
  table : ∀ d, (settings.get? outerTable).bind (·.get? innerTable) = some d → d.IsTable
  registry : ∀ d, part settings "registry" = some d → RegistrySource.Shaped d
  tree : ∀ d, part settings "tree" = some d → d.IsText

/-- Whether a configuration is the one that settings give to the project in a folder. What is
absent from the settings is absent from it. -/
structure GivenBy (root : Location) (settings : Data ν) (config : Config) : Prop where
  registry : Option.Rel (RegistrySource.GivenBy root) (part settings "registry") config.registry
  tree : Option.Rel (fun d l => ∃ text, d = .str text ∧ Location.GivenBy root text l)
    (part settings "tree") config.tree
  root : config.root = some root

theorem rel_unique {α β : Type} {R : α → β → Prop} (hR : ∀ a b b', R a b → R a b' → b = b')
    {o : Option α} {p p' : Option β} (h : Option.Rel R o p) (h' : Option.Rel R o p') : p = p' := by
  cases h with
  | none => cases h'; rfl
  | some h => cases h' with | some h' => rw [hR _ _ _ h h']

/-- Settings mean one configuration at most. -/
theorem GivenBy.unique {config config' : Config} (h : GivenBy root settings config)
    (h' : GivenBy root settings config') : config = config' := by
  have hregistry := rel_unique (fun _ _ _ h h' => h.unique h') h.registry h'.registry
  have htree : config.tree = config'.tree := by
    refine rel_unique ?_ h.tree h'.tree
    rintro _ l l' ⟨text, rfl, hl⟩ ⟨text', htext, hl'⟩
    obtain rfl : text = text' := by simpa using htext
    exact hl.unique hl'
  have hroot := h.root.trans h'.root.symm
  cases config
  cases config'
  simp_all

theorem registryOf_goesBy (root : Location) (table : Data ν) :
    GoesBy (∀ d, table.get? "registry" = some d → RegistrySource.Shaped d)
      (Option.Rel (RegistrySource.GivenBy root) (table.get? "registry"))
      (registryOf root table) := by
  unfold registryOf
  cases h : table.get? "registry" with
  | none => exact .given nofun .none
  | some d =>
    exact ((RegistrySource.ofData_goesBy root d).map fun source hsource => .some hsource).imp
      (by simp) fun _ => id

theorem treeOf_goesBy (root : Location) (table : Data ν) :
    GoesBy (∀ d, table.get? "tree" = some d → d.IsText)
      (Option.Rel (fun d l => ∃ text, d = .str text ∧ Location.GivenBy root text l)
        (table.get? "tree")) (treeOf root table) := by
  unfold treeOf
  split
  · rename_i h
    rw [h]
    exact .given nofun .none
  · rename_i text h
    rw [h]
    exact .given (by simp [Data.IsText]) (.some ⟨text, rfl, Location.givenBy_within root text⟩)
  · rename_i d htext h
    refine .refused (fun hrule => ?_) rfl
    obtain ⟨s, hs⟩ := hrule d h
    exact htext s hs

/-- The table of the project is read as soon as what it stands in is a table. -/
theorem table_goesBy (h : ∀ tool, settings.get? outerTable = some tool → tool.IsTable) :
    GoesBy (∀ d, (settings.get? outerTable).bind (·.get? innerTable) = some d → d.IsTable)
      (fun table => ∀ name, table.get? name = part settings name) (table settings) := by
  unfold table part
  cases houter : settings.get? outerTable with
  | none => exact .given nofun fun name => rfl
  | some tool =>
    obtain ⟨entries, rfl⟩ := h tool houter
    simp only [Option.bind_some, Data.get?]
    cases hinner : Entries.find innerTable entries with
    | none => exact .given nofun fun name => rfl
    | some d =>
      cases d with
      | dict entries => exact .given (by simp [Data.IsTable]) fun name => rfl
      | _ => exact .refused (by simp [Data.IsTable]) rfl

/-- Settings of the right form give a configuration and all others are refused, as soon as what the
project's table stands in is a table. -/
theorem ofSettings_goesBy (root : Location)
    (h : ∀ tool, settings.get? outerTable = some tool → tool.IsTable) :
    GoesBy (Shaped settings) (GivenBy root settings) (ofSettings root settings) := by
  have hparts : ∀ table : Data ν, (∀ name, table.get? name = part settings name) →
      GoesBy ((∀ d, part settings "registry" = some d → RegistrySource.Shaped d) ∧
          ∀ d, part settings "tree" = some d → d.IsText)
        (GivenBy root settings) (do
          let registry ← registryOf root table
          let tree ← treeOf root table
          return { registry, tree, root := some root }) := by
    intro table htable
    have hregistry := registryOf_goesBy root table
    have htree := treeOf_goesBy root table
    rw [htable] at hregistry htree
    exact hregistry.bind fun _ hregistry => htree.map fun _ htree => ⟨hregistry, htree, rfl⟩
  refine ((table_goesBy h).bind hparts).imp ?_ fun _ => id
  exact ⟨fun ⟨htable, hregistry, htree⟩ => ⟨htable, hregistry, htree⟩,
    fun ⟨htable, hregistry, htree⟩ => ⟨htable, hregistry, htree⟩⟩

theorem ofSettings_of_not_table {tool : Data ν} (h : settings.get? outerTable = some tool)
    (htool : ¬ tool.IsTable) : ofSettings root settings = .error .toolNotTable := by
  have htable : table settings = .error .toolNotTable := by
    unfold table
    rw [h]
    cases tool with
    | dict entries => exact absurd ⟨entries, rfl⟩ htool
    | _ => rfl
  rw [ofSettings, htable]
  rfl

end Config

/-- A file that can be read is taken for the settings it holds, seen from its folder. -/
theorem Disk.loadConfig_of_read {disk : Disk} {file : Location} {document : Document}
    (hread : disk.read file = .ok document) :
    disk.loadConfig file = match document.settings? with
      | some settings => Config.ofSettings file.parent settings
      | none => .error (.malformed file) := by
  simp only [loadConfig, hread]
  cases document.settings? <;> rfl

/-- Settings give the project in a folder a configuration by the rules of their levels, whatever
they hold, values such as dates included, which no rule has a use for: settings of the right form
give the configuration that they mean, with what they leave out left out, and all others are refused
in words. The one exception is that what the project's table should stand in is there and is not a
table: then there is no configuration either, but no words. A settings file gives what the settings
in it give in its folder. -/
theorem loadConfig_goesBy (root : Location) (settings : Data ν) :
    ((∀ tool, settings.get? Config.outerTable = some tool → tool.IsTable) →
      GoesBy (Config.Shaped settings) (Config.GivenBy root settings)
        (Config.ofSettings root settings)) ∧
    (∀ tool, settings.get? Config.outerTable = some tool → ¬ tool.IsTable →
      Config.ofSettings root settings = .error .toolNotTable) ∧
    ∀ (disk : Disk) (file : Location) (document : Document), disk.read file = .ok document →
      disk.loadConfig file = match document.settings? with
        | some settings => Config.ofSettings file.parent settings
        | none => .error (.malformed file) :=
  ⟨Config.ofSettings_goesBy root, fun _ => Config.ofSettings_of_not_table,
    fun _ _ _ => Disk.loadConfig_of_read⟩

/-- A disk with a project that has some settings. -/
def Disk.configured (settings : Data Empty) : Disk :=
  (empty ⟨.top, ["proj"]⟩).put ["proj", "pyproject.toml"] (.file (.settings settings))

/-- The settings file of the project. -/
def Disk.configuredFile : Location := ⟨.top, ["proj", "pyproject.toml"]⟩

/-- Settings with a script next to them and a tree elsewhere. -/
def Config.scripted : Data Empty :=
  .dict [(outerTable, .dict [(innerTable, .dict [
    ("registry", .dict [("script", .str "lib/ops.py")]), ("tree", .str "/data/form.json")])])]

theorem Config.scripted_shaped : Shaped scripted where
  table := by
    rintro _ ⟨⟩
    exact ⟨_, rfl⟩
  registry := by
    rintro _ ⟨⟩
    exact .script ⟨_, rfl⟩ nofun
  tree := by
    rintro _ ⟨⟩
    exact ⟨_, rfl⟩

theorem Config.scripted_givenBy : GivenBy ⟨.top, ["proj"]⟩ scripted
    ⟨some (.script ⟨.top, ["proj", "lib", "ops.py"]⟩ none), some ⟨.top, ["data", "form.json"]⟩,
      some ⟨.top, ["proj"]⟩⟩ where
  registry := .some (.script rfl (.placed (by decide)) rfl)
  tree := .some ⟨_, rfl, .kept (by decide)⟩
  root := rfl

/-- The script is placed in the project, the tree is kept, and where a number stands in place of
the tables there is no configuration. -/
theorem configured_goesBy :
    (Disk.configured Config.scripted).loadConfig Disk.configuredFile =
      .ok ⟨some (.script ⟨.top, ["proj", "lib", "ops.py"]⟩ none),
        some ⟨.top, ["data", "form.json"]⟩, some ⟨.top, ["proj"]⟩⟩ ∧
    (Disk.configured (.dict [(Config.outerTable, .int 3)])).loadConfig Disk.configuredFile =
      .error .toolNotTable := by
  constructor
  · obtain ⟨hgoes, -, hload⟩ := loadConfig_goesBy ⟨.top, ["proj"]⟩ Config.scripted
    have htable : ∀ tool, Config.scripted.get? Config.outerTable = some tool → tool.IsTable :=
      fun tool htool => ⟨_, (Option.some.inj htool).symm⟩
    obtain ⟨config, hconfig, hgiven⟩ := (hgoes htable).exists_ok Config.scripted_shaped
    rw [hgiven.unique Config.scripted_givenBy] at hconfig
    rw [hload _ _ (.settings Config.scripted) rfl]
    exact hconfig
  · obtain ⟨-, hrefuses, hload⟩ :=
      loadConfig_goesBy ⟨.top, ["proj"]⟩ (.dict [(Config.outerTable, .int 3)])
    rw [hload _ _ (.settings (.dict [(Config.outerTable, .int 3)])) rfl]
    refine hrefuses (.int 3) rfl ?_
    rintro ⟨_, h⟩
    cases h

end LiveTree
