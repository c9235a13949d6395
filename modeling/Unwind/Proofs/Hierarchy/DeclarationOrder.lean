import Mathlib
import Unwind.Proofs.Hierarchy.Assignments

/-!
# Answers and the order of declarations

The walk below a type meets the definitions in the order of the program, and the first entry of a
type stays. With single inheritance the order has no say all the same: which method a class is
assigned is told by the set of definitions (`Assigns.perm`), so that programs with the same
definitions in another order get the same entries (`resolve_order_irrelevant`).
-/

namespace Unwind

open Source
open Relation (ReflTransGen TransGen)

/-! ## The same definitions in another order -/

namespace Source.Program

theorem allTypes_perm {p p' : Program} (h : p.types.Perm p'.types) :
    p.allTypes.Perm p'.allTypes := by
  have hflat : ∀ ds : List TypeDef, TypeDef.allNested ds = ds.flatMap TypeDef.withNested := by
    intro ds
    induction ds with
    | nil => rfl
    | cons d ds ih => rw [TypeDef.allNested, ih, List.flatMap_cons]
  rw [allTypes, allTypes, hflat, hflat]
  exact h.flatMap_right _

section

variable {p p' : Program} (h : p.allTypes.Perm p'.allTypes)
include h

theorem extends_perm {d b : TypeDef} : p.Extends d b ↔ p'.Extends d b := by
  rw [Extends, Extends, h.mem_iff, h.mem_iff]

theorem derives_perm : p.Derives = p'.Derives := by
  funext d b
  rw [Derives, Derives, h.mem_iff, h.mem_iff]

theorem SingleInheritance.perm (hp : p.SingleInheritance) : p'.SingleInheritance where
  names := (h.map _).nodup_iff.mp hp.names
  qualified := (h.map _).nodup_iff.mp hp.qualified
  acyclic := derives_perm h ▸ hp.acyclic
  oneBase d hd := hp.oneBase d (h.mem_iff.mpr hd)
  classBase d b he := hp.classBase d b ((extends_perm h).mpr he)
  onlyInterfaces d hd b hb := hp.onlyInterfaces d (h.mem_iff.mpr hd) b (h.mem_iff.mpr hb)
  interfaceBase := derives_perm h ▸ hp.interfaceBase

theorem lister_perm {top d : TypeDef} (hd : Lister p top d) : Lister p' top d := by
  obtain ⟨hclass, i, ⟨hi, hint, hbelow⟩, hlists⟩ := hd
  rw [derives_perm h] at hbelow hlists
  exact ⟨hclass, i, ⟨h.mem_iff.mp hi, hint, hbelow⟩, hlists⟩

end

end Source.Program

namespace Hierarchy

open Source.Program

section

variable {p p' : Program} {top d : TypeDef} {m r : MethodRef}

theorem Starts.perm (hperm : p.allTypes.Perm p'.allTypes) (h : Starts p top m d r) :
    Starts p' top m d r := by
  cases h with
  | self hclass => exact .self hclass
  | implementor hi hd hr => exact .implementor hi (lister_perm hperm hd) hr

/-- Only the set of definitions counts. -/
theorem Assigns.perm (hperm : p.allTypes.Perm p'.allTypes) (h : Assigns p top m d r) :
    Assigns p' top m d r := by
  induction h with
  | start hs => exact .start (hs.perm hperm)
  | inherit hno hd _ ih =>
    refine .inherit (fun r' hs => hno r' (hs.perm hperm.symm)) ?_ ih
    exact derives_perm hperm ▸ hd

end

/-! ## Resolution -/

theorem nodup_foundBelow (h : Hierarchy) (m : MethodRef) : (h.foundBelow m).Nodup := by
  have hstart : Apart h.index.subtypeNames [] := ⟨List.nodup_nil, List.forall_mem_nil _⟩
  exact List.Nodup.of_map _ (nodup_overridesBelow (hstart.addAll _))

theorem foundBelow_perm {p p' : Program} (hp : p.SingleInheritance)
    (hperm : p.allTypes.Perm p'.allTypes) {top : TypeDef} {m : MethodRef} (htop : top ∈ p.allTypes)
    (hm : m.type.name = top.name.name) :
    ((ofProgram p).foundBelow m).Perm ((ofProgram p').foundBelow m) := by
  refine (List.perm_ext_iff_of_nodup (nodup_foundBelow _ m) (nodup_foundBelow _ m)).mpr fun o => ?_
  rw [mem_foundBelow_iff hp.singleSuperclass htop hm,
    mem_foundBelow_iff (hp.perm hperm).singleSuperclass (hperm.mem_iff.mp htop) hm]
  constructor
  · rintro ⟨d, hd, hne, hassigns⟩
    exact ⟨d, hd, hne, hassigns.perm hperm⟩
  · rintro ⟨d, hd, hne, hassigns⟩
    exact ⟨d, hd, hne, hassigns.perm hperm.symm⟩

/-- Two programs with the same top-level definitions in different orders give the same answers:
resolution is refused for both, or it finds the same entries for both. -/
theorem resolve_order_irrelevant {p p' : Program} (hp : p.SingleInheritance)
    (htypes : p.types.Perm p'.types) (m : MethodRef) :
    (∃ f, (ofProgram p).resolve m = .error f ∧ (ofProgram p').resolve m = .error f) ∨
    ∃ os os', (ofProgram p).resolve m = .ok os ∧ (ofProgram p').resolve m = .ok os' ∧
      os.Perm os' := by
  have hperm := allTypes_perm htypes
  have hp' := hp.perm hperm
  by_cases hm : ∃ top ∈ p.allTypes, m.type.name = top.name.name
  · obtain ⟨top, htop, hm⟩ := hm
    have htop' := hperm.mem_iff.mp htop
    refine .inr ⟨_, _, resolve_eq_overrides hp.singleSuperclass.toInterfacesApart htop hm,
      resolve_eq_overrides hp'.singleSuperclass.toInterfacesApart htop' hm, ?_⟩
    have hfound := foundBelow_perm hp hperm htop hm
    -- whether the entries are dropped depends on the set of them
    have hall : ((ofProgram p).foundBelow m).all (·.method == m) =
        ((ofProgram p').foundBelow m).all (·.method == m) := by
      rw [Bool.eq_iff_iff, List.all_eq_true, List.all_eq_true]
      simp only [hfound.mem_iff]
    rw [overrides_eq, overrides_eq, hall]
    split
    · exact .refl _
    · exact hfound
  · have hnone : ∀ {q : Program}, (∀ d, d ∈ q.allTypes → d ∈ p.allTypes) → q.SingleInheritance →
        (ofProgram q).table.get? m.type = none := by
      intro q hq hqs
      rw [Option.eq_none_iff_forall_ne_some]
      intro d hget
      obtain ⟨hd, hname⟩ := TypeTable.get?_eq_some hget
      have hdefs : (ofProgram q).table.defs = q.allTypes := TypeTable.defs_ofDefs hqs.names
      exact hm ⟨d, hq d (hdefs ▸ hd), hname.symm⟩
    refine .inl ⟨_, resolve_eq_error_iff.mpr ⟨hnone (fun _ hd => hd) hp, rfl⟩,
      resolve_eq_error_iff.mpr ⟨hnone (fun _ hd => hperm.mem_iff.mpr hd) hp', rfl⟩⟩

/-- A second class that implements the interface of the painters. -/
def roller : TypeDef :=
  ⟨⟨"Roller", none⟩, .classType, [], [⟨"Painter", none⟩], [], [{ name := "paint" }], []⟩

def guild : Program := { types := [painter, brush, fineBrush, roller] }

def reversedGuild : Program := { types := [roller, fineBrush, brush, painter] }

theorem guild_singleInheritance : guild.SingleInheritance :=
  .of_rank (fun d => ["Painter", "Brush", "FineBrush"].idxOf d.name.name) (by decide) (by decide)
    (by decide) (by decide) (by decide) (by decide) (by decide)

/-- The two orders of the definitions give the entries in two orders. -/
theorem guild_order_irrelevant :
    guild.types.Perm reversedGuild.types ∧ ∃ os os',
      (ofProgram guild).resolve paint = .ok os ∧ (ofProgram reversedGuild).resolve paint = .ok os' ∧
      typeNames os = ["Brush", "Roller", "FineBrush"] ∧
      typeNames os' = ["Roller", "Brush", "FineBrush"] ∧ os.Perm os' := by
  have hperm : guild.types.Perm reversedGuild.types := (List.reverse_perm _).symm
  have hnames : ((ofProgram guild).resolve paint).map typeNames =
      .ok ["Brush", "Roller", "FineBrush"] := by cbv
  have hnames' : ((ofProgram reversedGuild).resolve paint).map typeNames =
      .ok ["Roller", "Brush", "FineBrush"] := by cbv
  rcases resolve_order_irrelevant guild_singleInheritance hperm paint with
    ⟨f, hf, -⟩ | ⟨os, os', hos, hos', hentries⟩
  · rw [hf] at hnames
    cases hnames
  · rw [hos] at hnames
    rw [hos'] at hnames'
    exact ⟨hperm, os, os', hos, hos', Except.ok.inj hnames, Except.ok.inj hnames', hentries⟩

end Hierarchy

end Unwind
