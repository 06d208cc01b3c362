import SuperVoice.Lib.Bytes
import SuperVoice.Lib.Override
import SuperVoice.Lib.Search

/-! `parse_cli` of `sv::common::config`: options as `--name=value`, as `--name value` and bare. -/
namespace SuperVoice.Common.Config
open Bytes Search

def dashes : Bytes := ascii "--"
def equals : UInt8 := 61

/-- `std::unordered_map<std::string, std::string>` -/
abbrev Options := Bytes → Option Bytes

/-- The words behind the program's name; an option without `=` takes the next one. -/
def parseWords : List Bytes → Options → Options
  | [], result => result
  | arg :: rest, result =>
    if dashes <+: arg then
      match cut [equals] (arg.drop 2), rest with
      | some (name, value), rest => parseWords rest (Function.update result name (some value))
      | none, next :: rest => parseWords rest (Function.update result (arg.drop 2) (some next))
      | none, [] => Function.update result (arg.drop 2) (some (ascii "true"))
    else parseWords rest result

def parseCli (argv : List Bytes) : Options := parseWords argv.tail fun _ => none

inductive Form where
  | joined (value : Bytes)
  | separate (value : Bytes) (h : ¬ dashes <+: value)
  | bare

structure Group where
  name : Bytes
  form : Form

namespace Group

def words (group : Group) : List Bytes :=
  match group.form with
  | .joined value => [dashes ++ group.name ++ [equals] ++ value]
  | .separate value _ => [dashes ++ group.name, value]
  | .bare => [dashes ++ group.name]

def value (group : Group) : Bytes :=
  match group.form with
  | .joined value | .separate value _ => value
  | .bare => ascii "true"

end Group

/-- Each name has the value of its group, and there are no other names. -/
def Maps (result : Options) (groups : List Group) : Prop :=
  (∀ group ∈ groups, result group.name = some group.value) ∧
    ∀ name, (∀ group ∈ groups, group.name ≠ name) → result name = none

/-- All orders of the groups are parsed to their map. -/
def OrderFree (groups : List Group) : Prop :=
  ∀ (program : Bytes) (order : List Group), order.Perm groups →
    Maps (parseCli (program :: order.flatMap Group.words)) groups

/-- The name that a word gives a value to. -/
def key (word : Bytes) : Bytes := ((cut [equals] (word.drop 2)).map Prod.fst).getD (word.drop 2)

section Words
variable {name value word : Bytes} {words : List Bytes} {result : Options}

theorem drop_dashes (name : Bytes) : (dashes ++ name).drop 2 = name := by
  rw [List.drop_left' (show dashes.length = 2 from rfl)]

theorem key_of_cut {rest : Bytes} (h : cut [equals] (word.drop 2) = some (name, rest)) :
    key word = name := by
  rw [key, h]
  rfl

theorem key_of_cut_none (h : cut [equals] (word.drop 2) = none) : key word = word.drop 2 := by
  rw [key, h]
  rfl

theorem key_joined (h : equals ∉ name) : key (dashes ++ name ++ [equals] ++ value) = name := by
  have hcut : cut [equals] (name ++ [equals] ++ value) = some (name, value) :=
    cut_singleton_iff.mpr ⟨rfl, h⟩
  apply key_of_cut
  rw [List.append_assoc, List.append_assoc, drop_dashes, ← List.append_assoc, hcut]

theorem key_plain (h : equals ∉ name) : key (dashes ++ name) = name := by
  have hcut : cut [equals] ((dashes ++ name).drop 2) = none := by
    rw [drop_dashes]
    exact cut_singleton_none_iff.mpr h
  rw [key_of_cut_none hcut, drop_dashes]

theorem parseWords_joined (h : equals ∉ name) : parseWords
    ((dashes ++ name ++ [equals] ++ value) :: words) result =
      parseWords words (Function.update result name (some value)) := by
  have hdrop : (dashes ++ name ++ [equals] ++ value).drop 2 = name ++ [equals] ++ value := by
    rw [List.append_assoc, List.append_assoc, drop_dashes, List.append_assoc]
  have hdashes : dashes <+: dashes ++ name ++ [equals] ++ value := by
    rw [List.append_assoc, List.append_assoc]
    exact List.prefix_append _ _
  rw [parseWords.eq_def]
  simp only [hdashes, if_true, hdrop, cut_singleton_iff.mpr ⟨rfl, h⟩]

theorem parseWords_taking (h : equals ∉ name) :
    parseWords ((dashes ++ name) :: word :: words) result =
      parseWords words (Function.update result name (some word)) := by
  rw [parseWords.eq_def]
  simp only [List.prefix_append, if_true, drop_dashes, cut_singleton_none_iff.mpr h]

theorem parseWords_last (h : equals ∉ name) : parseWords [dashes ++ name] result =
      Function.update result name (some (ascii "true")) := by
  rw [parseWords.eq_def]
  simp only [List.prefix_append, if_true, drop_dashes, cut_singleton_none_iff.mpr h]

/-- Only the names that words give values to can change. -/
theorem parseWords_of_key_ne (h : ∀ word ∈ words, dashes <+: word → key word ≠ name) :
    parseWords words result name = result name := by
  induction words, result using parseWords.induct with
  | case1 result => rfl
  | case2 arg result hdashes optionName value rest hcut ih =>
    have hne : name ≠ optionName := by
      rw [← key_of_cut hcut]
      exact (h arg List.mem_cons_self hdashes).symm
    rw [parseWords.eq_def]
    simp only [hdashes, if_true, hcut]
    rw [ih fun word hword => h word (List.mem_cons_of_mem arg hword), Function.update_of_ne hne]
  | case3 arg result hdashes next rest hcut ih =>
    have hne : name ≠ arg.drop 2 := by
      rw [← key_of_cut_none hcut]
      exact (h arg List.mem_cons_self hdashes).symm
    rw [parseWords.eq_def]
    simp only [hdashes, if_true, hcut]
    rw [ih fun word hword => h word (List.mem_cons_of_mem arg (List.mem_cons_of_mem next hword)),
      Function.update_of_ne hne]
  | case4 arg result hdashes hcut =>
    have hne : name ≠ arg.drop 2 := by
      rw [← key_of_cut_none hcut]
      exact (h arg List.mem_cons_self hdashes).symm
    rw [parseWords.eq_def]
    simp only [hdashes, if_true, hcut]
    rw [Function.update_of_ne hne]
  | case5 arg rest result hdashes ih =>
    rw [parseWords.eq_def]
    simp only [hdashes, if_false]
    exact ih fun word hword => h word (List.mem_cons_of_mem arg hword)

theorem equals_notMem_key (word : Bytes) : equals ∉ key word := by
  cases hcut : cut [equals] (word.drop 2) with
  | none =>
    rw [key_of_cut_none hcut]
    exact cut_singleton_none_iff.mp hcut
  | some parts =>
    rw [key_of_cut hcut]
    exact (cut_singleton_iff.mp hcut).2

end Words

section Groups
variable {group : Group} {groups order : List Group} {words : List Bytes} {result : Options}

def Group.assign (group : Group) (result : Options) : Options :=
  Function.update result group.name (some group.value)

/-- The words of a group, unless it is bare, give the name its value whatever follows. -/
theorem parseWords_group (hname : equals ∉ group.name) (hform : group.form ≠ .bare) :
    parseWords (group.words ++ words) result = parseWords words (group.assign result) := by
  obtain ⟨name, form⟩ := group
  cases form with
  | joined value => exact parseWords_joined hname
  | separate value h => exact parseWords_taking hname
  | bare => exact absurd rfl hform

/-- Without bare groups the words are the assignments of the groups one after the other. -/
theorem parseWords_groups (hname : ∀ group ∈ order, equals ∉ group.name)
    (hform : ∀ group ∈ order, group.form ≠ .bare) :
    parseWords (order.flatMap Group.words) result =
      order.foldl (fun result group => group.assign result) result := by
  induction order generalizing result with
  | nil => rfl
  | cons group order ih =>
    rw [List.flatMap_cons, parseWords_group (hname group List.mem_cons_self)
      (hform group List.mem_cons_self), List.foldl_cons]
    exact ih (fun g hg => hname g (List.mem_cons_of_mem group hg))
      fun g hg => hform g (List.mem_cons_of_mem group hg)

/-- Groups with different names all keep their values. -/
theorem maps_foldl_assign (hnodup : (order.map Group.name).Nodup) :
    Maps (order.foldl (fun result group => group.assign result) fun _ => none) order :=
  ⟨fun _ hgroup => Override.foldl_update_of_mem _ hnodup hgroup,
    fun _ hname => Override.foldl_update_of_ne _ hname⟩

/-- The keys of a group's words are its name. -/
theorem key_of_mem_words {word : Bytes} (hname : equals ∉ group.name) (hword : word ∈ group.words)
    (hdashes : dashes <+: word) : key word = group.name := by
  obtain ⟨name, form⟩ := group
  cases form with
  | joined value =>
    rw [List.mem_singleton.mp hword]
    exact key_joined hname
  | separate value h =>
    obtain rfl | hlast := List.mem_cons.mp hword
    · exact key_plain hname
    · rw [List.mem_singleton.mp hlast] at hdashes
      exact absurd hdashes h
  | bare =>
    rw [List.mem_singleton.mp hword]
    exact key_plain hname

/-- The words of a group begin with an option. -/
theorem words_eq_cons (group : Group) : ∃ word words, group.words = (dashes ++ word) :: words := by
  obtain ⟨name, form⟩ := group
  cases form with
  | joined value =>
    refine ⟨name ++ [equals] ++ value, [], ?_⟩
    simp [Group.words]
  | separate value h => exact ⟨name, [value], rfl⟩
  | bare => exact ⟨name, [], rfl⟩

/-- A bare option swallows the group behind it. -/
theorem bare_swallows (result : Options) {next : Group} {rest : List Group}
    (hbare : group.form = .bare) (hname : ∀ g ∈ group :: next :: rest, equals ∉ g.name)
    (hnodup : ((group :: next :: rest).map Group.name).Nodup) :
    ∃ word, parseWords ((group :: next :: rest).flatMap Group.words) result group.name =
      some (dashes ++ word) := by
  obtain ⟨word, words, hwords⟩ := words_eq_cons next
  have hgroup : group.words = [dashes ++ group.name] := by
    rw [Group.words, hbare]
  have hdifferent : ∀ g ∈ next :: rest, g.name ≠ group.name := by
    intro g hg heq
    rw [List.map_cons, List.nodup_cons] at hnodup
    exact hnodup.1 (List.mem_map.mpr ⟨g, hg, heq⟩)
  have hkeys : ∀ w ∈ words ++ rest.flatMap Group.words, dashes <+: w → key w ≠ group.name := by
    intro w hw hdashes
    have hmem : w ∈ (next :: rest).flatMap Group.words := by
      rw [List.flatMap_cons, hwords, List.cons_append]
      exact List.mem_cons_of_mem _ hw
    obtain ⟨g, hg, hgw⟩ := List.mem_flatMap.mp hmem
    rw [key_of_mem_words (hname g (List.mem_cons_of_mem group hg)) hgw hdashes]
    exact hdifferent g hg
  refine ⟨word, ?_⟩
  rw [List.flatMap_cons, List.flatMap_cons, hgroup, hwords, List.cons_append, List.nil_append,
    List.cons_append, parseWords_taking (hname group List.mem_cons_self),
    parseWords_of_key_ne hkeys, Function.update_self]

theorem maps_of_perm (hperm : order.Perm groups) (h : Maps result order) : Maps result groups :=
  ⟨fun group hgroup => h.1 group (hperm.mem_iff.mpr hgroup),
    fun name hname => h.2 name fun group hgroup => hname group (hperm.mem_iff.mp hgroup)⟩

/-- The groups are parsed to their map in all orders exactly when no name holds `=` and no bare
option stands beside another group. -/
theorem orderFree_iff (hnodup : (groups.map Group.name).Nodup) : OrderFree groups ↔
    (∀ group ∈ groups, equals ∉ group.name) ∧
      ∀ group ∈ groups, group.form = .bare → groups = [group] := by
  constructor
  · intro h
    have hname : ∀ group ∈ groups, equals ∉ group.name := by
      intro group hgroup hmem
      have hvalue := (h [] groups (List.Perm.refl groups)).1 group hgroup
      rw [parseCli, List.tail_cons, parseWords_of_key_ne fun word _ _ heq => by
        rw [← heq] at hmem
        exact equals_notMem_key word hmem] at hvalue
      cases hvalue
    refine ⟨hname, fun group hgroup hbare => ?_⟩
    obtain ⟨front, back, rfl⟩ := List.append_of_mem hgroup
    have hperm : (group :: (front ++ back)).Perm (front ++ group :: back) := List.perm_middle.symm
    cases hrest : front ++ back with
    | nil =>
      obtain ⟨rfl, rfl⟩ := List.append_eq_nil_iff.mp hrest
      rfl
    | cons next rest =>
      rw [hrest] at hperm
      have hvalue := (h [] _ hperm).1 group hgroup
      obtain ⟨word, hword⟩ := bare_swallows (fun _ => none) hbare
        (fun g hg => hname g (hperm.mem_iff.mp hg)) ((hperm.map Group.name).nodup_iff.mpr hnodup)
      rw [parseCli, List.tail_cons, hword, Group.value, hbare] at hvalue
      cases hvalue
  · rintro ⟨hname, hbare⟩ program order hperm
    apply maps_of_perm hperm
    have hname' : ∀ group ∈ order, equals ∉ group.name := fun group hgroup =>
      hname group (hperm.mem_iff.mp hgroup)
    have hnodup' : (order.map Group.name).Nodup := (hperm.map Group.name).nodup_iff.mpr hnodup
    have hparsed : parseCli (program :: order.flatMap Group.words) =
        order.foldl (fun result group => group.assign result) fun _ => none := by
      by_cases hall : ∀ group ∈ order, group.form ≠ .bare
      · exact parseWords_groups hname' hall
      · push Not at hall
        obtain ⟨group, hgroup, hform⟩ := hall
        have hsingle := hbare group (hperm.mem_iff.mp hgroup) hform
        rw [hsingle] at hperm
        rw [List.perm_singleton.mp hperm]
        obtain ⟨name, form⟩ := group
        cases hform
        exact parseWords_last (hname' _ hgroup)
    rw [hparsed]
    exact maps_foldl_assign hnodup'

end Groups

/-- A bare option in front of another option takes it for its value. -/
theorem orderFree_fails : ¬ ∀ groups : List Group, (groups.map Group.name).Nodup →
    OrderFree groups := by
  intro h
  have hmaps := h [⟨ascii "tcp-no-delay", .bare⟩, ⟨ascii "port", .joined (ascii "80")⟩] (by decide)
    (ascii "client") _ (List.Perm.refl _)
  have hport := hmaps.1 ⟨ascii "port", .joined (ascii "80")⟩ (by simp)
  revert hport
  decide

theorem orderFree_sample : OrderFree [⟨ascii "host", .separate (ascii "::1") (by decide)⟩,
    ⟨ascii "port", .joined (ascii "80")⟩] :=
  (orderFree_iff (by decide)).mpr ⟨by decide, by simp⟩

end SuperVoice.Common.Config
