/-
The layout cache.

The layout of a class depends on its name and on whether it is an interface, and all arrays share
one. A cache is `Right` when everything in it is what would be computed, so it stays right while the
type system goes on. The main statements:

* `layout_eq`: a layout is the one that belongs to its key, whatever is cached.
* `interfaceTable_eq`: the symbol of an interface table is the mangled one, whatever is cached.
* `Right.of_keepsNames`: all that a cache relies on are names, and which classes are interfaces.
-/
import Erasure.Symbol.Layout
import Erasure.Proofs.Canonical.Recall

namespace Erasure

/-! ### Layouts -/

/-- The layout of a class or interface by its name. -/
def ClassLayout.ofClass (name : String) (isInterface : Bool) : ClassLayout where
  typeName := (if isInterface then "interface." else "class.") ++ name
  tableTypeName := (if isInterface then "itable." else "dv.") ++ name
  size := (Symbol.size name).encode
  table := (if isInterface then Symbol.interfaceTable name name else .dispatchVector name).encode
  classInit := (Symbol.classInit name).encode
  interfacesInit := (Symbol.interfacesInit name).encode
  descriptor := if isInterface then some (Symbol.interfaceDescriptor name).encode else none

/-- The layout that all arrays share. -/
def ClassLayout.ofArrays : ClassLayout :=
  { ofClass Symbol.arrayClass false with typeName := Symbol.arrayClass }

namespace LayoutCache

open TypeSystem (Mentions)

variable {ts us : TypeSystem} {cache : LayoutCache}

/-- The layout that is to be remembered for a key. -/
def layoutFor (ts : TypeSystem) : LayoutKey → ClassLayout
  | .classDef c => .ofClass (ts.className c) (ts.isInterface c)
  | .arrays => .ofArrays

theorem layoutOf_raw {ty : TypeId} {c : ClassId} (hk : ts.kind ty = .raw c) :
    layoutOf ts ty = .ok (.ofClass (ts.className c) (ts.isInterface c)) := by
  have hname : ts.linkName ty = .ok (ts.className c) := by rw [TypeSystem.linkName, hk]
  have hinterface : ts.isInterfaceType ty = ts.isInterface c := by
    rw [TypeSystem.isInterfaceType, TypeSystem.classOf?, hk]
    rfl
  have htypeName : ts.layoutTypeName ty =
      .ok ((if ts.isInterface c then "interface." else "class.") ++ ts.className c) := by
    rw [TypeSystem.layoutTypeName, hk]
  have hinterfaceName : ts.isInterface c = true →
      ts.interfaceLinkName ty = .ok (ts.className c) := fun h => by
    rw [TypeSystem.interfaceLinkName, hk]
    exact if_pos h
  unfold layoutOf tableAndDescriptor TypeSystem.tableTypeName TypeSystem.sizeSymbol
    TypeSystem.classInitSymbol TypeSystem.interfacesInitSymbol TypeSystem.dispatchVectorSymbol
    TypeSystem.interfaceTableSymbol TypeSystem.interfaceDescriptorSymbol ClassLayout.ofClass
  rw [hinterface, htypeName, hname]
  cases h : ts.isInterface c with
  | true =>
    rw [hinterfaceName h]
    rfl
  | false => rfl

theorem layoutOf_array {ty elem : TypeId} (hk : ts.kind ty = .array elem) :
    layoutOf ts ty = .ok .ofArrays := by
  have hname : ts.linkName ty = .ok Symbol.arrayClass := by rw [TypeSystem.linkName, hk]
  have hinterface : ts.isInterfaceType ty = false := by
    rw [TypeSystem.isInterfaceType, TypeSystem.classOf?, hk]
    rfl
  have htypeName : ts.layoutTypeName ty = .ok Symbol.arrayClass := by
    rw [TypeSystem.layoutTypeName, hk]
  unfold layoutOf tableAndDescriptor TypeSystem.tableTypeName TypeSystem.sizeSymbol
    TypeSystem.classInitSymbol TypeSystem.interfacesInitSymbol TypeSystem.dispatchVectorSymbol
  rw [hinterface, htypeName, hname]
  rfl

/-- A type that is no instantiation has the layout that belongs to its key. -/
theorem layoutOf_eq {ty : TypeId} (hty : ∀ base s outer, ts.kind ty ≠ .inst base s outer)
    {key : LayoutKey} (hkey : keyOf ts ty = .ok key) : layoutOf ts ty = .ok (layoutFor ts key) := by
  unfold keyOf TypeSystem.classOf? at hkey
  cases hk : ts.kind ty with
  | raw c =>
    rw [hk] at hkey
    cases hkey
    exact layoutOf_raw hk
  | array elem =>
    rw [TypeSystem.linkName, hk] at hkey
    cases hkey
    exact layoutOf_array hk
  | inst base s outer => exact absurd hk (hty base s outer)
  | prim _ | null | var _ | lub _ =>
    rw [TypeSystem.linkName, hk] at hkey
    cases hkey

theorem mentions_of_keyOf {ty : TypeId} (hty : ts.pool.Has ty) {c : ClassId}
    (hkey : keyOf ts ty = .ok (.classDef c)) : ts.Mentions c := by
  unfold keyOf at hkey
  split at hkey
  · rename_i d hd
    cases hkey
    exact ⟨ty, hty, hd⟩
  · cases h : ts.linkName ty with
    | ok name | error e =>
      rw [h] at hkey
      cases hkey

/-! ### Names that are kept -/

end LayoutCache

namespace TypeSystem

variable {ts us vs : TypeSystem}

/-- The type system has grown, and the classes that its types mention have the names that they had and
are interfaces or not as they were. Their supertypes and members may be others. -/
structure KeepsNames (ts us : TypeSystem) : Prop where
  le : ts ≤ us
  className : ∀ {c}, ts.Mentions c → us.className c = ts.className c
  isInterface : ∀ {c}, ts.Mentions c → us.isInterface c = ts.isInterface c

theorem Continues.keepsNames (hts : ts.Valid) (h : Continues ts us) : KeepsNames ts us where
  le := h.le
  className {c} hc := by
    rw [className, h.name hc, className]
    exact text_of_le h.le (hts.classes c).name
  isInterface := h.isInterface

theorem KeepsNames.linkName_eq (h : KeepsNames ts us) {ty : TypeId} (hty : ts.pool.Has ty)
    {name : String} (hname : ts.linkName ty = .ok name) : us.linkName ty = .ok name := by
  have hkind := kind_of_le h.le hty
  unfold linkName at hname ⊢
  rw [hkind]
  split at hname
  · rename_i c hk
    rw [h.className ⟨ty, hty, by rw [classOf?, hk]; rfl⟩]
    exact hname
  · exact hname
  · cases hname

theorem KeepsNames.interfaceLinkName_eq (h : KeepsNames ts us) {ty : TypeId}
    (hty : ts.pool.Has ty) {name : String} (hname : ts.interfaceLinkName ty = .ok name) :
    us.interfaceLinkName ty = .ok name := by
  have hkind := kind_of_le h.le hty
  unfold interfaceLinkName at hname ⊢
  rw [hkind]
  split at hname
  · rename_i c hk
    have hc : ts.Mentions c := ⟨ty, hty, by rw [classOf?, hk]; rfl⟩
    rw [h.isInterface hc, h.className hc]
    split at hname
    · rename_i hinterface
      rw [if_pos hinterface]
      exact hname
    · cases hname
  · cases hname

theorem KeepsNames.interfaceTableSymbol_eq (h : KeepsNames ts us) {iface ty : TypeId}
    (hiface : ts.pool.Has iface) (hty : ts.pool.Has ty) {symbol : Symbol}
    (hsymbol : ts.interfaceTableSymbol iface ty = .ok symbol) :
    us.interfaceTableSymbol iface ty = .ok symbol := by
  unfold interfaceTableSymbol at hsymbol ⊢
  cases hname : ts.interfaceLinkName iface with
  | error e =>
    rw [hname] at hsymbol
    cases hsymbol
  | ok name =>
    cases hlink : ts.linkName ty with
    | error e =>
      rw [hname, hlink] at hsymbol
      cases hsymbol
    | ok link =>
      rw [h.interfaceLinkName_eq hiface hname, h.linkName_eq hty hlink]
      rw [hname, hlink] at hsymbol
      exact hsymbol

end TypeSystem

namespace LayoutCache

open TypeSystem (Follows KeepsNames Mentions)

variable {ts us : TypeSystem} {cache : LayoutCache}

/-! ### Right caches -/

/-- Whatever is remembered would be computed again. -/
structure Right (cache : LayoutCache) (ts : TypeSystem) : Prop where
  layouts : ∀ {key l}, cache.layouts.find? key = some l →
    l = layoutFor ts key ∧ ∀ c, key = .classDef c → ts.Mentions c
  interfaceTables : ∀ {iface ty t}, cache.interfaceTables.find? (iface, ty) = some t →
    ts.pool.Has iface ∧ ts.pool.Has ty ∧
      ∃ symbol, ts.interfaceTableSymbol iface ty = .ok symbol ∧ symbol.encode = t

theorem right_empty (ts : TypeSystem) : Right {} ts := ⟨nofun, nofun⟩

/-- What is remembered stays right while names are kept. -/
theorem Right.of_keepsNames (h : Right cache ts) (hnames : KeepsNames ts us) : Right cache us where
  layouts hfind := by
    obtain ⟨rfl, hmentions⟩ := h.layouts hfind
    rename_i key
    refine ⟨?_, fun c hc => (hmentions c hc).of_le hnames.le⟩
    cases key with
    | arrays => rfl
    | classDef c =>
      have hc := hmentions c rfl
      rw [layoutFor, layoutFor, hnames.className hc, hnames.isInterface hc]
  interfaceTables hfind := by
    obtain ⟨hiface, hty, symbol, hsymbol, ht⟩ := h.interfaceTables hfind
    exact ⟨hiface.of_le hnames.le.1, hty.of_le hnames.le.1, symbol,
      hnames.interfaceTableSymbol_eq hiface hty hsymbol, ht⟩

/-- What is remembered stays right while the type system goes on. -/
theorem Right.of_follows (hts : ts.Valid) (h : Right cache ts) (hfollows : Follows ts us) :
    Right cache us := h.of_keepsNames (hfollows.continues.keepsNames hts)

theorem Right.insert (h : Right cache ts) {ty : TypeId} (hty : ts.pool.Has ty) {key : LayoutKey}
    (hkey : keyOf ts ty = .ok key) :
    Right { cache with layouts := cache.layouts.insert key (layoutFor ts key) } ts where
  layouts hfind := by
    rcases Memo.find?_insert_cases hfind with ⟨rfl, rfl⟩ | hfind
    · exact ⟨rfl, fun c hc => mentions_of_keyOf hty (hc ▸ hkey)⟩
    · exact h.layouts hfind
  interfaceTables := h.interfaceTables

/-! Requests for a layout -/

theorem run_layout_without_key {ty : TypeId} {e : MangleError} (hkey : keyOf ts ty = .error e) :
    (layout ts ty).run cache = (.error e, cache) := by
  unfold layout
  rw [hkey]
  rfl

theorem run_layout_known {ty : TypeId} {key : LayoutKey} {l : ClassLayout}
    (hkey : keyOf ts ty = .ok key) (hfind : cache.layouts.find? key = some l) :
    (layout ts ty).run cache = (.ok l, cache) := by
  unfold layout
  rw [hkey, run_lift_ok_bind_apply, run_get_bind_apply, hfind]
  rfl

theorem run_layout_new {ty : TypeId} {key : LayoutKey} (hkey : keyOf ts ty = .ok key)
    (hfind : cache.layouts.find? key = none) :
    (layout ts ty).run cache = (layoutOf ts ty, match layoutOf ts ty with
      | .ok l => { cache with layouts := cache.layouts.insert key l }
      | .error _ => cache) := by
  unfold layout
  rw [hkey, run_lift_ok_bind_apply, run_get_bind_apply, hfind]
  cases layoutOf ts ty <;> rfl

/-- The layout of an erased type is the one that belongs to its key. -/
theorem layout_eq (h : Right cache ts) {ty : TypeId} (hty : ts.pool.IsNormal ty) :
    ∃ cache', (layout ts ty).run cache = ((keyOf ts ty).map (layoutFor ts), cache') ∧
      Right cache' ts := by
  cases hkey : keyOf ts ty with
  | error e => exact ⟨cache, run_layout_without_key hkey, h⟩
  | ok key =>
    cases hfind : cache.layouts.find? key with
    | some l =>
      obtain ⟨rfl, -⟩ := h.layouts hfind
      exact ⟨cache, run_layout_known hkey hfind, h⟩
    | none =>
      have hinst : ∀ base s outer, ts.kind ty ≠ .inst base s outer := fun base s outer hk => by
        have hhas := hty.has.hasKind_of_eq hk
        exact hty.not_inst hhas
      rw [run_layout_new hkey hfind, layoutOf_eq hinst hkey]
      exact ⟨_, rfl, h.insert hty.has hkey⟩

/-- A request for an interface table leaves the layouts alone, and all of the cache if it fails. -/
theorem interfaceTable_leaves (ts : TypeSystem) (iface ty : TypeId) (cache : LayoutCache) :
    let run := (interfaceTable ts iface ty).run cache
    run.2.layouts = cache.layouts ∧ ∀ e, run.1 = .error e → run.2 = cache := by
  unfold interfaceTable
  rw [run_get_bind_apply]
  cases cache.interfaceTables.find? (iface, ty) with
  | some t => exact ⟨rfl, fun _ _ => rfl⟩
  | none =>
    cases ts.interfaceTableSymbol iface ty with
    | error e => exact ⟨rfl, fun _ _ => rfl⟩
    | ok symbol => exact ⟨rfl, nofun⟩

/-- The symbol of an interface table is the mangled one. -/
theorem interfaceTable_eq (h : Right cache ts) {iface ty : TypeId} (hiface : ts.pool.Has iface)
    (hty : ts.pool.Has ty) :
    ∃ cache', (interfaceTable ts iface ty).run cache =
      ((ts.interfaceTableSymbol iface ty).map Symbol.encode, cache') ∧ Right cache' ts := by
  unfold interfaceTable
  rw [run_get_bind_apply]
  cases hfind : cache.interfaceTables.find? (iface, ty) with
  | some t =>
    obtain ⟨-, -, symbol, hsymbol, rfl⟩ := h.interfaceTables hfind
    rw [hsymbol]
    exact ⟨cache, rfl, h⟩
  | none =>
    cases hsymbol : ts.interfaceTableSymbol iface ty with
    | error e => exact ⟨cache, rfl, h⟩
    | ok symbol =>
      refine ⟨_, rfl, h.layouts, fun hfind => ?_⟩
      rcases Memo.find?_insert_cases hfind with ⟨hpair, rfl⟩ | hfind
      · obtain ⟨rfl, rfl⟩ := Prod.mk.inj hpair
        exact ⟨hiface, hty, symbol, hsymbol, rfl⟩
      · exact h.interfaceTables hfind

end LayoutCache

end Erasure
