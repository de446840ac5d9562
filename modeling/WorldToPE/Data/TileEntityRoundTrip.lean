import WorldToPE.Data.TileEntity
import WorldToPE.Lib.Named

/-!
# WorldToPE.Data.TileEntityRoundTrip — which tile entities can be written back

A tile entity that was read from a compound is written and read again.  The stores of the classes read
and write the same tags, with two exceptions: a container without items cannot be written, and the
second coordinate of a chest's pair is written only if the first one is not the value that stands for
"no pair".

* `readSingleTileEntity_writeTileEntity`: what is read back, for every object that can be written.
* `writesBack_iff_fields`: the objects that come back unchanged.
* `foldlM_last` gives what an object has in terms of the compound that it was read from.
* `writesBack_iff`: the compounds whose tile entity comes back unchanged.
-/

namespace WorldToPE

open Java Named

/-- The classes of the `tileentity` package that can be instantiated. -/
inductive TileClass
  | tile
  | chest
  | furnace
  | netherReactor
  | sign
  | mobSpawner
deriving DecidableEq, Repr

namespace TileFields

def cls : TileFields → TileClass
  | .tile => .tile
  | .chest _ _ _ => .chest
  | .furnace _ _ _ => .furnace
  | .netherReactor _ _ _ => .netherReactor
  | .sign _ => .sign
  | .mobSpawner _ => .mobSpawner

/-- The fields of a new object. -/
def initial : TileClass → TileFields
  | .tile => .tile
  | .chest => .chest none (-65535) (-65535)
  | .furnace => .furnace none 0 0
  | .netherReactor => .netherReactor false 0 false
  | .sign => .sign (Vector.replicate 4 "")
  | .mobSpawner => .mobSpawner ⟨20, 0, 6, 200, 200, 16, 4, 4⟩

/-- What is read back: an item loses the tags that are not known, a chest without the first coordinate
of the pair loses the second. -/
def kept : TileFields → TileFields
  | .chest i px pz => .chest (i.map (List.map InventorySlot.typed)) px
      (if px ≠ -65535 then pz else -65535)
  | .furnace i b c => .furnace (i.map (List.map InventorySlot.typed)) b c
  | f => f

/-- The pair of a chest; a tile entity of another class has none. -/
def pairx : TileFields → Int32
  | .chest _ px _ => px
  | _ => -65535

def pairz : TileFields → Int32
  | .chest _ _ pz => pz
  | _ => -65535

/-- Every amount fits in the byte that it is stored in. -/
def Small (f : TileFields) : Prop :=
  ∀ slots, f.items? = some (some slots) → ∀ s ∈ slots, s.contents.Small

theorem items?_eq_none_iff {f : TileFields} : f.items? = none ↔ f.cls ≠ .chest ∧ f.cls ≠ .furnace := by
  cases f <;> simp [items?, cls]

end TileFields

namespace NBTConverter

/-! ## The store of a class -/

def tileStoreFor : TileClass → TileEntityStore
  | .tile => []
  | .chest => ChestTileEntityStore
  | .furnace => FurnaceTileEntityStore
  | .netherReactor => NetherReactorTileEntityStore
  | .sign => SignTileEntityStore
  | .mobSpawner => MobSpawnerTileEntityStore

/-- The class that an id stands for. -/
def tileClassById (id : String) : TileClass := (createTileEntityById id).fields.cls

/-- **The tables agree**: class and store are looked up by the same key. -/
theorem tileStoreById_eq (id : String) :
    tileStoreById id = tileStoreFor (tileClassById id) ∧
      createTileEntityById id = ⟨none, 0, 0, 0, TileFields.initial (tileClassById id)⟩ := by
  unfold tileClassById tileStoreById createTileEntityById
  cases h : tileStores.find? fun p => p.1 = upperCase id with
  | none => exact ⟨rfl, rfl⟩
  | some p =>
    have hp := List.mem_of_find?_eq_some h
    simp only [tileStores, List.mem_cons, List.not_mem_nil, or_false] at hp
    rcases hp with rfl | rfl | rfl | rfl | rfl <;> exact ⟨rfl, rfl⟩

/-! ## The tags of a class -/

/-- The store of its own class writes every object except a container without items. -/
theorem mapM_saveTile {f : TileFields} (hi : f.items? ≠ some none) :
    ∃ own, (tileStoreFor f.cls).mapM (fun layer => layer.save f) = .ok own ∧
      own.flatten = ownTileTags f := by
  cases f with
  | chest items px pz =>
    cases items with
    | none => exact absurd rfl hi
    | some items => exact ⟨_, rfl, by simp [ownTileTags]⟩
  | furnace items b c =>
    cases items with
    | none => exact absurd rfl hi
    | some items => exact ⟨_, rfl, rfl⟩
  | _ => exact ⟨_, rfl, rfl⟩

theorem mapM_saveTile_none {f : TileFields} (hi : f.items? = some none) :
    (tileStoreFor f.cls).mapM (fun layer => layer.save f) = .error .nullPointer := by
  cases f with
  | chest items px pz =>
    obtain rfl := Option.some.inj hi
    rfl
  | furnace items b c =>
    obtain rfl := Option.some.inj hi
    rfl
  | _ => cases hi

/-- The store of another class than `TileEntity` itself fails on an object of a different class. -/
theorem mapM_saveTile_cast {f : TileFields} {c : TileClass} (hc : c ≠ f.cls) (ht : c ≠ .tile) :
    ∃ e, (tileStoreFor c).mapM (fun layer => layer.save f) = .error e := by
  cases c with
  | tile => exact absurd rfl ht
  | chest =>
    cases f with
    | chest => exact absurd rfl hc
    | furnace items => cases items <;> exact ⟨_, rfl⟩
    | _ => exact ⟨_, rfl⟩
  | furnace =>
    cases f with
    | furnace => exact absurd rfl hc
    | chest items => cases items <;> exact ⟨_, rfl⟩
    | _ => exact ⟨_, rfl⟩
  | netherReactor | sign | mobSpawner =>
    cases f with
    | netherReactor | sign | mobSpawner => first | exact absurd rfl hc | exact ⟨_, rfl⟩
    | _ => exact ⟨_, rfl⟩

/-! ## One tag -/

section OneTag

variable {f : TileFields} {t : Tag}

theorem loadTileLayers_items {items : List InventorySlot} (hs : ∀ s ∈ items, s.contents.Small)
    (hf : f.items? ≠ none) :
    loadTileLayers f (writeInventory items "Items") (tileStoreFor f.cls).reverse =
      .ok (some (f.setItems (items.map InventorySlot.typed))) := by
  have hload : containerLayer.load f (writeInventory items "Items") =
      .ok (some (f.setItems (items.map InventorySlot.typed))) := by
    obtain ⟨x, hx⟩ := Option.ne_none_iff_exists'.mp hf
    unfold containerLayer
    simp only [hx, castTo, name_writeInventory, if_true, readInventory_write hs]
    rfl
  cases f with
  | chest =>
    show (containerLayer.load _ (writeInventory items "Items") >>= _) = _
    rw [hload]
    rfl
  | furnace =>
    show (containerLayer.load _ (writeInventory items "Items") >>= _) = _
    rw [hload]
    rfl
  | _ => exact absurd rfl hf

/-- **A tag of the class sets its component.** -/
theorem loadTileLayers_own (hi : f.items? ≠ some none) (hs : f.Small) (ht : t ∈ ownTileTags f)
    (seen : String → Bool) :
    loadTileLayers (f.kept.blend seen) t (tileStoreFor f.cls).reverse =
      .ok (some (f.kept.blend (mark t.name seen))) := by
  cases f with
  | tile => cases ht
  | chest items px pz =>
    cases items with
    | none => exact absurd rfl hi
    | some items =>
      rcases List.mem_append.mp ht with ht | ht
      · obtain rfl := List.mem_singleton.mp ht
        exact loadTileLayers_items (f := (TileFields.chest (some items) px pz).kept.blend seen)
          (hs items rfl) nofun
      · by_cases hp : px = -65535
        · simp [hp] at ht
        · simp only [ne_eq, hp, not_false_eq_true, if_true, List.mem_cons, List.not_mem_nil, or_false] at ht
          have hk : (TileFields.chest (some items) px pz).kept =
            .chest (some (items.map InventorySlot.typed)) px pz := by simp [TileFields.kept, hp]
          rw [hk]
          rcases ht with rfl | rfl
          · rfl
          · rfl
  | furnace items b c =>
    cases items with
    | none => exact absurd rfl hi
    | some items =>
      simp only [ownTileTags, List.mem_cons, List.not_mem_nil, or_false] at ht
      rcases ht with rfl | rfl | rfl
      · exact loadTileLayers_items (f := (TileFields.furnace (some items) b c).kept.blend seen)
          (hs items rfl) nofun
      · rfl
      · rfl
  | netherReactor initialized progress finished =>
    simp only [ownTileTags, List.mem_cons, List.not_mem_nil, or_false] at ht
    rcases ht with rfl | rfl | rfl
    · cases finished <;> rfl
    · cases initialized <;> rfl
    · rfl
  | sign lines =>
    simp only [ownTileTags, List.mem_cons, List.not_mem_nil, or_false] at ht
    rcases ht with rfl | rfl | rfl | rfl
    · rfl
    · rfl
    · rfl
    · rfl
  | mobSpawner s =>
    simp only [ownTileTags, List.mem_cons, List.not_mem_nil, or_false] at ht
    rcases ht with rfl | rfl | rfl | rfl | rfl | rfl | rfl | rfl
    · rfl
    · rfl
    · rfl
    · rfl
    · rfl
    · rfl
    · rfl
    · rfl

end OneTag

/-! ## What a layer can do -/

section Layers

variable {f : TileFields} {t : Tag} {r : Option TileFields}

theorem loadTileLayers_cons {layer : TileStoreLayer} {layers : List TileStoreLayer}
    (h : loadTileLayers f t (layer :: layers) = .ok r) :
    (∃ f', layer.load f t = .ok (some f') ∧ r = some f') ∨
      layer.load f t = .ok none ∧ loadTileLayers f t layers = .ok r := by
  obtain ⟨o, ho, h⟩ := bind_eq_ok.mp h
  cases o with
  | some f' => exact .inl ⟨f', ho, (Except.ok.inj h).symm⟩
  | none => exact .inr ⟨ho, h⟩

theorem containerLayer_load (h : containerLayer.load f t = .ok r) :
    (t.name = "Items" ∧ ∃ slots, readInventory t = .ok slots ∧ r = some (f.setItems slots)) ∨
      t.name ≠ "Items" ∧ r = none := by
  obtain ⟨items, -, h⟩ := bind_eq_ok.mp h
  by_cases hn : t.name = "Items"
  · rw [if_pos hn] at h
    obtain ⟨slots, hs, h⟩ := bind_eq_ok.mp h
    exact .inl ⟨hn, slots, hs, (Except.ok.inj h).symm⟩
  · rw [if_neg hn] at h
    exact .inr ⟨hn, (Except.ok.inj h).symm⟩

theorem chestLayer_load (h : chestLayer.load f t = .ok r) : ∃ items px pz, f = .chest items px pz ∧
    ((t.name = "pairx" ∧ ∃ v, intOf t = .ok v ∧ r = some (.chest items v pz)) ∨
      (t.name = "pairz" ∧ ∃ v, intOf t = .ok v ∧ r = some (.chest items px v)) ∨
      t.name ≠ "pairx" ∧ t.name ≠ "pairz" ∧ r = none) := by
  cases f with
  | chest items px pz =>
    refine ⟨items, px, pz, rfl, ?_⟩
    simp only [chestLayer] at h
    by_cases hx : t.name = "pairx"
    · rw [if_pos hx] at h
      obtain ⟨v, hv, h⟩ := bind_eq_ok.mp h
      exact .inl ⟨hx, v, hv, (Except.ok.inj h).symm⟩
    by_cases hz : t.name = "pairz"
    · rw [if_neg hx, if_pos hz] at h
      obtain ⟨v, hv, h⟩ := bind_eq_ok.mp h
      exact .inr (.inl ⟨hz, v, hv, (Except.ok.inj h).symm⟩)
    · rw [if_neg hx, if_neg hz] at h
      exact .inr (.inr ⟨hx, hz, (Except.ok.inj h).symm⟩)
  | _ => cases h

theorem furnaceLayer_load (h : furnaceLayer.load f t = .ok r) : ∃ items b c, f = .furnace items b c ∧
    ((t.name ∈ ["BurnTime", "CookTime"] ∧ ∃ b' c', r = some (.furnace items b' c')) ∨ r = none) := by
  cases f with
  | furnace items b c =>
    refine ⟨items, b, c, rfl, ?_⟩
    simp only [furnaceLayer] at h
    by_cases hb : t.name = "BurnTime"
    · rw [if_pos hb] at h
      obtain ⟨v, hv, h⟩ := bind_eq_ok.mp h
      exact .inl ⟨by simp [hb], v, c, (Except.ok.inj h).symm⟩
    by_cases hc : t.name = "CookTime"
    · rw [if_neg hb, if_pos hc] at h
      obtain ⟨v, hv, h⟩ := bind_eq_ok.mp h
      exact .inl ⟨by simp [hc], b, v, (Except.ok.inj h).symm⟩
    · rw [if_neg hb, if_neg hc] at h
      exact .inr (Except.ok.inj h).symm
  | _ => cases h

/-- A tag that sets a field, in a class with a single layer. -/
theorem plain_of_bind {α : Type} {x : Except Exn α} {g : α → TileFields} {f' : TileFields}
    (h : (x >>= fun a => Except.ok (some (g a))) = .ok (some f')) (hg : ∀ a, (g a).cls = f.cls) :
    f'.cls = f.cls := by
  obtain ⟨a, -, h⟩ := bind_eq_ok.mp h
  rw [← Option.some.inj (Except.ok.inj h), hg a]

/-- The stores of the classes that are not containers keep the class. -/
theorem plainLayers_load {f' : TileFields} (hf : f.items? = none)
    (h : loadTileLayers f t (tileStoreFor f.cls).reverse = .ok (some f')) :
    f'.cls = f.cls := by
  cases f with
  | tile => cases h
  | chest | furnace => cases hf
  | netherReactor initialized progress finished =>
    rcases loadTileLayers_cons h with ⟨_, h, hr⟩ | ⟨-, h⟩
    · obtain rfl := Option.some.inj hr
      simp only [netherReactorLayer] at h
      split_ifs at h
      · exact plain_of_bind h fun _ => rfl
      · exact plain_of_bind h fun _ => rfl
      · exact plain_of_bind h fun _ => rfl
      · cases h
    · cases h
  | sign lines =>
    rcases loadTileLayers_cons h with ⟨_, h, hr⟩ | ⟨-, h⟩
    · obtain rfl := Option.some.inj hr
      simp only [signLayer] at h
      split_ifs at h
      · exact plain_of_bind h fun _ => rfl
      · exact plain_of_bind h fun _ => rfl
      · exact plain_of_bind h fun _ => rfl
      · exact plain_of_bind h fun _ => rfl
      · cases h
    · cases h
  | mobSpawner s =>
    rcases loadTileLayers_cons h with ⟨_, h, hr⟩ | ⟨-, h⟩
    · obtain rfl := Option.some.inj hr
      simp only [mobSpawnerLayer] at h
      split_ifs at h
      · exact plain_of_bind h fun _ => rfl
      · exact plain_of_bind h fun _ => rfl
      · exact plain_of_bind h fun _ => rfl
      · exact plain_of_bind h fun _ => rfl
      · exact plain_of_bind h fun _ => rfl
      · exact plain_of_bind h fun _ => rfl
      · exact plain_of_bind h fun _ => rfl
      · exact plain_of_bind h fun _ => rfl
      · cases h
    · cases h

/-- **What a store can do to the fields**, in terms of the name of the tag. -/
structure Effect (f : TileFields) (t : Tag) (r : Option TileFields) : Prop where
  cls : (r.getD f).cls = f.cls
  items : f.items? ≠ none → t.name = "Items" →
    ∃ slots, readInventory t = .ok slots ∧ (r.getD f).items? = some (some slots)
  itemsKept : t.name ≠ "Items" → (r.getD f).items? = f.items?
  pairx : f.cls = .chest → t.name = "pairx" → intOf t = .ok (r.getD f).pairx
  pairxKept : t.name ≠ "pairx" → (r.getD f).pairx = f.pairx
  pairz : f.cls = .chest → t.name = "pairz" → intOf t = .ok (r.getD f).pairz
  pairzKept : t.name ≠ "pairz" → (r.getD f).pairz = f.pairz

/-- The last layer of a container. -/
theorem containerTail_effect (hf : f.items? ≠ none)
    (hn : f.cls = .chest → t.name ≠ "pairx" ∧ t.name ≠ "pairz")
    (h : loadTileLayers f t [containerLayer] = .ok r) : Effect f t r := by
  have hr : (t.name = "Items" ∧ ∃ slots, readInventory t = .ok slots ∧ r = some (f.setItems slots)) ∨
      t.name ≠ "Items" ∧ r = none := by
    rcases loadTileLayers_cons h with ⟨f', hload, rfl⟩ | ⟨hload, hnil⟩
    · exact containerLayer_load hload
    · rcases containerLayer_load hload with ⟨_, _, _, hr⟩ | ⟨hne, -⟩
      · cases hr
      · exact .inr ⟨hne, (Except.ok.inj hnil).symm⟩
  rcases hr with ⟨hitems, slots, hs, rfl⟩ | ⟨hitems, rfl⟩
  · cases f with
    | chest | furnace =>
      constructor <;> simp [hitems, hs, TileFields.cls, TileFields.setItems, TileFields.items?,
        TileFields.pairx, TileFields.pairz]
    | _ => exact absurd rfl hf
  · refine ⟨rfl, fun _ h => absurd h hitems, fun _ => rfl, ?_, fun _ => rfl, ?_, fun _ => rfl⟩
    · exact fun hc h => absurd h (hn hc).1
    · exact fun hc h => absurd h (hn hc).2

theorem loadTileLayers_effect (h : loadTileLayers f t (tileStoreFor f.cls).reverse = .ok r) :
    Effect f t r := by
  cases hf : f.items? with
  | none =>
    have hpx {f : TileFields} (h : f.items? = none) : f.pairx = -65535 ∧ f.pairz = -65535 ∧
        f.cls ≠ .chest := by
      cases f with
      | chest => cases h
      | _ => exact ⟨rfl, rfl, nofun⟩
    cases r with
    | none =>
      refine ⟨rfl, fun h => absurd hf h, fun _ => rfl, ?_, fun _ => rfl, ?_, fun _ => rfl⟩
      · exact fun hc => absurd hc (hpx hf).2.2
      · exact fun hc => absurd hc (hpx hf).2.2
    | some f' =>
      have hcls := plainLayers_load hf h
      have hf' : f'.items? = none := by
        rw [TileFields.items?_eq_none_iff, hcls]
        exact TileFields.items?_eq_none_iff.mp hf
      refine ⟨hcls, fun h => absurd hf h, fun _ => ?_, ?_, fun _ => ?_, ?_, fun _ => ?_⟩
      · rw [Option.getD_some, hf', hf]
      · exact fun hc => absurd hc (hpx hf).2.2
      · rw [Option.getD_some, (hpx hf).1, (hpx hf').1]
      · exact fun hc => absurd hc (hpx hf).2.2
      · rw [Option.getD_some, (hpx hf).2.1, (hpx hf').2.1]
  | some items =>
    cases f with
    | chest items px pz =>
      rcases loadTileLayers_cons h with ⟨f', hload, rfl⟩ | ⟨hload, htail⟩
      · obtain ⟨_, _, _, heq, hcase⟩ := chestLayer_load hload
        cases heq
        rcases hcase with ⟨hn, v, hv, hr⟩ | ⟨hn, v, hv, hr⟩ | ⟨-, -, hr⟩
        · obtain rfl := Option.some.inj hr
          constructor <;>
            simp [hn, hv, TileFields.cls, TileFields.items?, TileFields.pairx, TileFields.pairz]
        · obtain rfl := Option.some.inj hr
          constructor <;>
            simp [hn, hv, TileFields.cls, TileFields.items?, TileFields.pairx, TileFields.pairz]
        · cases hr
      · obtain ⟨_, _, _, heq, hcase⟩ := chestLayer_load hload
        have hpair : t.name ≠ "pairx" ∧ t.name ≠ "pairz" := by simpa using hcase
        exact containerTail_effect nofun (fun _ => hpair) htail
    | furnace items b c =>
      rcases loadTileLayers_cons h with ⟨f', hload, rfl⟩ | ⟨hload, htail⟩
      · obtain ⟨_, _, _, heq, hcase⟩ := furnaceLayer_load hload
        cases heq
        rcases hcase with ⟨hn, b', c', hr⟩ | hr
        · obtain rfl := Option.some.inj hr
          have hne : t.name ≠ "Items" := by
            simp only [List.mem_cons, List.not_mem_nil, or_false] at hn
            rcases hn with hn | hn <;> simp [hn]
          constructor <;>
            simp [hne, TileFields.cls, TileFields.items?, TileFields.pairx, TileFields.pairz]
        · cases hr
      · exact containerTail_effect nofun nofun htail
    | _ => cases hf

end Layers

/-! ## Tags of the class and tags of `TileEntity` -/

def tileBaseNames : List String := ["id", "x", "y", "z"]

/-- The names of the stores above `TileEntityStore`. -/
def tileOwnNames : List String :=
  ["Items", "pairx", "pairz", "BurnTime", "CookTime", "HasFinished", "IsInitialized", "Progress", "Text1",
    "Text2", "Text3", "Text4", "Delay", "EntityId", "MaxNearbyEntities", "MaxSpawnDelay", "MinSpawnDelay",
    "RequiredPlayerRange", "SpawnCount", "SpawnRange"]

theorem tileOwnNames_ne_baseNames : ∀ m ∈ tileOwnNames, ∀ n ∈ tileBaseNames, m ≠ n := by decide +kernel

theorem loadTileLayers_base (f : TileFields) {t : Tag} (ht : t.name ∈ tileBaseNames) :
    loadTileLayers f t (tileStoreFor f.cls).reverse = .ok none := by
  have h : ∀ m ∈ tileOwnNames, t.name ≠ m := fun m hm => (tileOwnNames_ne_baseNames m hm _ ht).symm
  simp only [tileOwnNames, List.forall_mem_cons] at h
  cases f <;>
    simp [loadTileLayers, tileStoreFor, TileFields.cls, ChestTileEntityStore, FurnaceTileEntityStore,
      ContainerTileEntityStore, NetherReactorTileEntityStore, SignTileEntityStore,
      MobSpawnerTileEntityStore, chestLayer, furnaceLayer, containerLayer, netherReactorLayer, signLayer,
      mobSpawnerLayer, TileFields.items?, castTo, h, pure, Except.pure, bind, Except.bind]

/-- The names of the tags that are written for the class fields. -/
def tileNamesOf : TileFields → List String
  | .tile => []
  | .chest _ px _ => ["Items"] ++ if px ≠ -65535 then ["pairx", "pairz"] else []
  | .furnace _ _ _ => ["Items", "BurnTime", "CookTime"]
  | .netherReactor _ _ _ => ["HasFinished", "IsInitialized", "Progress"]
  | .sign _ => ["Text1", "Text2", "Text3", "Text4"]
  | .mobSpawner _ => ["Delay", "EntityId", "MaxNearbyEntities", "MaxSpawnDelay", "MinSpawnDelay",
      "RequiredPlayerRange", "SpawnCount", "SpawnRange"]

theorem names_ownTileTags (f : TileFields) : (ownTileTags f).map Tag.name = tileNamesOf f := by
  cases f with
  | chest items px pz =>
    simp only [ownTileTags, tileNamesOf]
    split_ifs <;> rfl
  | _ => rfl

theorem tileNamesOf_subset (f : TileFields) : ∀ n ∈ tileNamesOf f, n ∈ tileOwnNames := by
  cases f with
  | chest items px pz =>
    simp only [tileNamesOf]
    split_ifs <;> simp [tileOwnNames]
  | _ => simp [tileNamesOf, tileOwnNames]

theorem name_ownTileTags {f : TileFields} {t : Tag} (ht : t ∈ ownTileTags f) : t.name ∈ tileOwnNames := by
  apply tileNamesOf_subset f
  rw [← names_ownTileTags f]
  exact List.mem_map_of_mem ht

/-- Once every name of the class has been seen, the fields are complete. -/
theorem blend_kept {f : TileFields} {seen : String → Bool} (h : ∀ n ∈ tileNamesOf f, seen n = true) :
    f.kept.blend seen = f.kept := by
  cases f with
  | chest items px pz =>
    by_cases hp : px = -65535
    · subst hp
      have hi : seen "Items" = true := h _ (by simp [tileNamesOf])
      simp [TileFields.kept, TileFields.blend, hi]
    · simp only [tileNamesOf, ne_eq, hp, not_false_eq_true, if_true, List.cons_append, List.nil_append,
        List.forall_mem_cons] at h
      simp [TileFields.kept, TileFields.blend, h, hp]
  | sign lines =>
    simp only [tileNamesOf, List.forall_mem_cons] at h
    simp only [TileFields.kept, TileFields.blend, h, cond_true]
    congr 1
    apply Vector.ext
    intro i hi
    rcases i with _ | _ | _ | _ | i
    · rfl
    · rfl
    · rfl
    · rfl
    · omega
  | _ =>
    simp only [tileNamesOf, List.forall_mem_cons] at h
    simp only [TileFields.kept, TileFields.blend, h, cond_true]

theorem blend_mark_tileBase {n : String} (hn : n ∈ tileBaseNames) (f : TileFields)
    (seen : String → Bool) : f.blend (mark n seen) = f.blend seen := by
  have h : ∀ m ∈ tileOwnNames, mark n seen m = seen m := by
    intro m hm
    simp [mark, tileOwnNames_ne_baseNames m hm n hn]
  simp only [tileOwnNames, List.forall_mem_cons] at h
  cases f <;> simp only [TileFields.blend, h]

theorem blend_none_seen (f : TileFields) : f.blend (fun _ => false) = TileFields.initial f.cls := by
  cases f <;> rfl

theorem cls_blend (f : TileFields) (seen : String → Bool) : (f.blend seen).cls = f.cls := by
  cases f <;> rfl

theorem cls_kept (f : TileFields) : f.kept.cls = f.cls := by
  cases f <;> rfl

/-! ## Writing and reading -/

/-- The tags of `TileEntityStore`. -/
def saveTileBase (id : String) (x y z : Int32) : List Tag :=
  [.string "id" id, .int "x" x, .int "y" y, .int "z" z]

section RoundTrip

variable {id : String} {x y z : Int32} {f : TileFields}

/-- The tile entity as it is after the names that have been seen. -/
def tilePartly (id : String) (x y z : Int32) (f : TileFields) (seen : String → Bool) : TileEntity where
  id := some id
  x := cond (seen "x") x 0
  y := cond (seen "y") y 0
  z := cond (seen "z") z 0
  fields := f.blend seen

theorem loadTileTag_of_none {store : TileEntityStore} {e : TileEntity} {t : Tag}
    (h : loadTileLayers e.fields t store.reverse = .ok none) :
    loadTileTag store e t = loadTileTag [] e t := by
  unfold loadTileTag
  rw [h]
  rfl

theorem loadTileTag_of_some {store : TileEntityStore} {e : TileEntity} {t : Tag} {f' : TileFields}
    (h : loadTileLayers e.fields t store.reverse = .ok (some f')) :
    loadTileTag store e t = .ok { e with fields := f' } := by
  unfold loadTileTag
  rw [h]
  rfl

/-- **Each tag sets its component.** -/
theorem loadTileTag_partly (hi : f.items? ≠ some none) (hs : f.Small) {t : Tag}
    (ht : t ∈ saveTileBase id x y z ++ ownTileTags f) (seen : String → Bool) :
    loadTileTag (tileStoreFor f.cls) (tilePartly id x y z f.kept seen) t =
      .ok (tilePartly id x y z f.kept (mark t.name seen)) := by
  have hcls : (f.kept.blend seen).cls = f.cls := (cls_blend _ _).trans (cls_kept f)
  rcases List.mem_append.mp ht with h | h
  · have hname : t.name ∈ tileBaseNames := by
      simp only [saveTileBase, List.mem_cons, List.not_mem_nil, or_false] at h
      rcases h with rfl | rfl | rfl | rfl <;> simp [Tag.name, tileBaseNames]
    have hload := loadTileLayers_base (f.kept.blend seen) hname
    rw [hcls] at hload
    rw [loadTileTag_of_none hload]
    unfold tilePartly
    rw [blend_mark_tileBase hname]
    simp only [saveTileBase, List.mem_cons, List.not_mem_nil, or_false] at h
    rcases h with rfl | rfl | rfl | rfl
    · rfl
    · rfl
    · rfl
    · rfl
  · have hload := loadTileLayers_own hi hs h seen
    have hbase : ∀ n ∈ tileBaseNames, mark t.name seen n = seen n := by
      intro n hn
      simp [mark, (tileOwnNames_ne_baseNames _ (name_ownTileTags h) n hn).symm]
    simp only [tileBaseNames, List.forall_mem_cons] at hbase
    rw [loadTileTag_of_some hload]
    simp only [tilePartly, hbase]

theorem readSingleTileEntity_of_find {name : String} {tags : List Tag}
    (h : tags.find? (fun t => t.name = "id") = some (.string "id" id)) :
    readSingleTileEntity (.compound name tags) = (readTileEntity id tags).map some := by
  unfold readSingleTileEntity
  simp only [Tag.asCompound, bind, Except.bind, h]
  show (readTileEntity id tags >>= fun e => Except.ok (some e)) = _
  cases readTileEntity id tags <;> rfl

/-- **What is read back**, for every object of the class of its id that can be written. -/
theorem readSingleTileEntity_writeTileEntity (hc : f.cls = tileClassById id)
    (hi : f.items? ≠ some none) (hs : f.Small) :
    ∃ tags, writeTileEntity ⟨some id, x, y, z, f⟩ = .ok (.compound "" tags) ∧
      readSingleTileEntity (.compound "" tags) = .ok (some ⟨some id, x, y, z, f.kept⟩) := by
  obtain ⟨hstore, hnew⟩ := tileStoreById_eq id
  rw [← hc] at hstore hnew
  obtain ⟨own, hown, hflat⟩ := mapM_saveTile hi
  set ts := saveTileBase id x y z ++ ownTileTags f with hts
  have hfind : (sortByName ts).find? (fun t => t.name = "id") = some (.string "id" id) := by
    refine find_sortByName rfl (by simp [hts, saveTileBase]) fun t ht hid => ?_
    rcases List.mem_append.mp ht with h | h
    · simp only [saveTileBase, List.mem_cons, List.not_mem_nil, or_false] at h
      rcases h with rfl | rfl | rfl | rfl
      · rfl
      · simp [Tag.name] at hid
      · simp [Tag.name] at hid
      · simp [Tag.name] at hid
    · exact absurd hid (tileOwnNames_ne_baseNames _ (name_ownTileTags h) _ (by simp [tileBaseNames]))
  have hstart : { createTileEntityById id with id := some id } =
      tilePartly id x y z f.kept fun _ => false := by
    rw [hnew, tilePartly, blend_none_seen, cls_kept]
    rfl
  have hblend : ∀ t ∈ sortByName ts, ∀ seen,
      loadTileTag (tileStoreFor f.cls) (tilePartly id x y z f.kept seen) t =
        .ok (tilePartly id x y z f.kept (mark t.name seen)) :=
    fun t ht => loadTileTag_partly hi hs (mem_sortByName.mp ht)
  have hseen : ∀ t ∈ ts, marks Tag.name (sortByName ts) (fun _ => false) t.name = true :=
    fun t ht => marks_eq_true_iff.mpr (.inl ⟨t, mem_sortByName.mpr ht, rfl⟩)
  refine ⟨sortByName ts, ?_, ?_⟩
  · show ((tileStoreById id).mapM (fun layer => layer.save f) >>= fun own =>
      Except.ok (Tag.compound "" (sortByName (saveTileBase id x y z ++ own.flatten)))) = _
    rw [hstore, hown, hts, ← hflat]
    rfl
  · rw [readSingleTileEntity_of_find hfind, readTileEntity, hstore, hstart, foldlM_blend hblend]
    have hfields : f.kept.blend (marks Tag.name (sortByName ts) fun _ => false) = f.kept := by
      apply blend_kept
      intro n hn
      rw [← names_ownTileTags f] at hn
      obtain ⟨t, ht, rfl⟩ := List.mem_map.mp hn
      exact hseen t (List.mem_append_right _ ht)
    have hx := hseen (.int "x" x) (by simp [hts, saveTileBase])
    have hy := hseen (.int "y" y) (by simp [hts, saveTileBase])
    have hz := hseen (.int "z" z) (by simp [hts, saveTileBase])
    simp only [Tag.name] at hx hy hz
    simp only [tilePartly, hfields, hx, hy, hz, cond_true]
    rfl

end RoundTrip

/-! ## The objects that come back unchanged -/

/-- Writing succeeds, and reading what was written gives the same class and the same fields. -/
def WritesBack (e : TileEntity) : Prop :=
  ∃ w, writeTileEntity e = .ok w ∧ readSingleTileEntity w = .ok (some e)

theorem kept_eq_iff {f : TileFields} : f.kept = f ↔
    (∀ slots, f.items? = some (some slots) → ∀ s ∈ slots, s.typed = s) ∧
      (f.pairx ≠ -65535 ∨ f.pairz = -65535) := by
  have hmap (slots : List InventorySlot) :
      slots.map InventorySlot.typed = slots ↔ ∀ s ∈ slots, s.typed = s := by
    simpa using List.map_inj_left (l := slots) (f := InventorySlot.typed) (g := id)
  cases f with
  | chest items px pz =>
    have hpair : (if px ≠ -65535 then pz else -65535) = pz ↔ px ≠ -65535 ∨ pz = -65535 := by
      by_cases hp : px = -65535
      · simp [hp, eq_comm]
      · simp [hp]
    simp only [TileFields.kept, TileFields.items?, TileFields.pairx, TileFields.pairz,
      TileFields.chest.injEq, true_and, hpair]
    cases items with
    | none => simp
    | some slots => simp [hmap]
  | furnace items b c =>
    cases items with
    | none => simp [TileFields.kept, TileFields.items?, TileFields.pairx, TileFields.pairz]
    | some slots => simp [TileFields.kept, TileFields.items?, TileFields.pairx, TileFields.pairz, hmap]
  | _ => simp [TileFields.kept, TileFields.items?, TileFields.pairx, TileFields.pairz]

theorem writeTileEntity_eq_error {id : String} {x y z : Int32} {f : TileFields} {e : Exn}
    (h : (tileStoreById id).mapM (fun layer => layer.save f) = .error e) :
    writeTileEntity ⟨some id, x, y, z, f⟩ = .error e := by
  show ((tileStoreById id).mapM (fun layer => layer.save f) >>= fun own =>
    Except.ok (Tag.compound "" (sortByName (saveTileBase id x y z ++ own.flatten)))) = _
  rw [h]
  rfl

theorem writesBack_iff_fields {id : String} {x y z : Int32} {f : TileFields} (hs : f.Small) :
    WritesBack ⟨some id, x, y, z, f⟩ ↔
      f.cls = tileClassById id ∧ f.items? ≠ some none ∧ f.kept = f := by
  obtain ⟨hstore, -⟩ := tileStoreById_eq id
  constructor
  · rintro ⟨w, hw, hr⟩
    have hc : f.cls = tileClassById id := by
      by_contra hne
      by_cases htile : tileClassById id = .tile
      · -- the default store writes the object as a plain tile entity
        have hplain : writeTileEntity ⟨some id, x, y, z, .tile⟩ = writeTileEntity ⟨some id, x, y, z, f⟩ := by
          unfold writeTileEntity
          simp only [hstore, htile, tileStoreFor]
          rfl
        obtain ⟨tags, hw', hr'⟩ := readSingleTileEntity_writeTileEntity (x := x) (y := y) (z := z)
          (f := .tile) htile.symm nofun nofun
        rw [hplain, hw] at hw'
        obtain rfl := Except.ok.inj hw'
        rw [hr] at hr'
        have heq := congrArg TileEntity.fields (Option.some.inj (Except.ok.inj hr'))
        exact hne (by rw [show f = .tile from heq, htile]; rfl)
      · obtain ⟨e, he⟩ := mapM_saveTile_cast (Ne.symm hne) htile
        rw [writeTileEntity_eq_error (by rw [hstore]; exact he)] at hw
        cases hw
    have hi : f.items? ≠ some none := by
      intro hi
      rw [writeTileEntity_eq_error (by rw [hstore, ← hc]; exact mapM_saveTile_none hi)] at hw
      cases hw
    refine ⟨hc, hi, ?_⟩
    obtain ⟨tags, hw', hr'⟩ := readSingleTileEntity_writeTileEntity (x := x) (y := y) (z := z) hc hi hs
    rw [hw] at hw'
    obtain rfl := Except.ok.inj hw'
    rw [hr] at hr'
    exact (congrArg TileEntity.fields (Option.some.inj (Except.ok.inj hr'))).symm
  · rintro ⟨hc, hi, hk⟩
    obtain ⟨tags, hw, hr⟩ := readSingleTileEntity_writeTileEntity (x := x) (y := y) (z := z) hc hi hs
    rw [hk] at hr
    exact ⟨_, hw, hr⟩

/-! ## What was read, in terms of the compound -/

/-- The last tag of a name, which is the one whose value stays. -/
def lastTag (tags : List Tag) (name : String) : Option Tag := tags.reverse.find? fun t => t.name = name

/-- A coordinate of the pair of a chest. -/
def pairOf (tags : List Tag) (name : String) : Int32 :=
  match lastTag tags name with
  | some (.int _ v) => v
  | _ => -65535

section Reading

variable {c : TileClass} {e e' : TileEntity} {t : Tag} {tags : List Tag}

/-- The default store. -/
theorem loadTileTag_nil (h : loadTileTag [] e t = .ok e') : e'.fields = e.fields ∧
    (t.name = "id" → ∃ s, Tag.asString (some t) = .ok s ∧ e'.id = some s) ∧
    (t.name ≠ "id" → e'.id = e.id) := by
  have hcoord {g : Int32 → TileEntity} (h : (intOf t >>= fun v => Except.ok (g v)) = .ok e')
      (hg : ∀ v, (g v).fields = e.fields ∧ (g v).id = e.id) (hid : t.name ≠ "id") :
      e'.fields = e.fields ∧ (t.name = "id" → ∃ s, Tag.asString (some t) = .ok s ∧ e'.id = some s) ∧
        (t.name ≠ "id" → e'.id = e.id) := by
    obtain ⟨v, -, h⟩ := bind_eq_ok.mp h
    obtain rfl := Except.ok.inj h
    exact ⟨(hg v).1, fun h => absurd h hid, fun _ => (hg v).2⟩
  change (if t.name = "x" then _ else _) = _ at h
  by_cases hx : t.name = "x"
  · rw [if_pos hx] at h
    exact hcoord h (fun _ => ⟨rfl, rfl⟩) (by simp [hx])
  by_cases hy : t.name = "y"
  · rw [if_neg hx, if_pos hy] at h
    exact hcoord h (fun _ => ⟨rfl, rfl⟩) (by simp [hy])
  by_cases hz : t.name = "z"
  · rw [if_neg hx, if_neg hy, if_pos hz] at h
    exact hcoord h (fun _ => ⟨rfl, rfl⟩) (by simp [hz])
  by_cases hid : t.name = "id"
  · rw [if_neg hx, if_neg hy, if_neg hz, if_pos hid] at h
    obtain ⟨s, hs, h⟩ := bind_eq_ok.mp h
    obtain rfl := Except.ok.inj h
    exact ⟨rfl, fun _ => ⟨s, hs, rfl⟩, fun hne => absurd hid hne⟩
  · rw [if_neg hx, if_neg hy, if_neg hz, if_neg hid] at h
    obtain rfl := Except.ok.inj h
    exact ⟨rfl, fun h => absurd h hid, fun _ => rfl⟩

theorem loadTileTag_effect (hc : e.fields.cls = c) (h : loadTileTag (tileStoreFor c) e t = .ok e') :
    (∃ r, Effect e.fields t r ∧ e'.fields = r.getD e.fields) ∧
      (t.name = "id" → ∃ s, Tag.asString (some t) = .ok s ∧ e'.id = some s) ∧
      (t.name ≠ "id" → e'.id = e.id) := by
  subst hc
  cases hload : loadTileLayers e.fields t (tileStoreFor e.fields.cls).reverse with
  | error err =>
    unfold loadTileTag at h
    rw [hload] at h
    cases h
  | ok r =>
    cases r with
    | some f =>
      rw [loadTileTag_of_some hload] at h
      obtain rfl := Except.ok.inj h
      refine ⟨⟨_, loadTileLayers_effect hload, rfl⟩, fun hid => ?_, fun _ => rfl⟩
      rw [loadTileLayers_base e.fields (by simp [hid, tileBaseNames])] at hload
      cases hload
    | none =>
      rw [loadTileTag_of_none hload] at h
      obtain ⟨hf, hid, hne⟩ := loadTileTag_nil h
      exact ⟨⟨none, loadTileLayers_effect hload, hf⟩, hid, hne⟩

theorem cls_loadTileTag (hc : e.fields.cls = c) (h : loadTileTag (tileStoreFor c) e t = .ok e') :
    e'.fields.cls = c := by
  obtain ⟨⟨r, hr, hf⟩, -⟩ := loadTileTag_effect hc h
  rw [hf, hr.cls, hc]

variable {id : String} (h : readTileEntity id tags = .ok e)
include h

theorem readTileEntity_start : ∃ e₀ : TileEntity, e₀.fields = TileFields.initial (tileClassById id) ∧
    e₀.fields.cls = tileClassById id ∧
    tags.foldlM (loadTileTag (tileStoreFor (tileClassById id))) e₀ = .ok e := by
  obtain ⟨hstore, hnew⟩ := tileStoreById_eq id
  unfold readTileEntity at h
  rw [hstore, hnew] at h
  refine ⟨_, rfl, ?_, h⟩
  show (TileFields.initial (tileClassById id)).cls = tileClassById id
  cases tileClassById id <;> rfl

theorem cls_readTileEntity : e.fields.cls = tileClassById id := by
  obtain ⟨e₀, -, hc, hfold⟩ := readTileEntity_start h
  rcases foldlM_last (I := fun e => e.fields.cls = tileClassById id) (p := fun _ : Tag => false)
    (g := fun e => e.fields.cls) (S := fun _ _ => False) (fun hc hstep => cls_loadTileTag hc hstep)
    (fun _ hp _ => nomatch hp) (fun hc _ hstep => (cls_loadTileTag hc hstep).trans hc.symm) hc hfold
    with ⟨_, _, hf⟩ | ⟨-, hcls⟩
  · exact hf.elim
  · exact hcls.trans hc

theorem id_readTileEntity (hid : ∃ t ∈ tags, t.name = "id") :
    ∃ t s, lastTag tags "id" = some t ∧ Tag.asString (some t) = .ok s ∧ e.id = some s := by
  obtain ⟨e₀, -, hc, hfold⟩ := readTileEntity_start h
  rcases foldlM_last (I := fun e => e.fields.cls = tileClassById id)
    (p := fun t : Tag => t.name = "id") (g := TileEntity.id)
    (S := fun t o => ∃ s, Tag.asString (some t) = .ok s ∧ o = some s)
    (fun hc hstep => cls_loadTileTag hc hstep)
    (fun hc hp hstep => (loadTileTag_effect hc hstep).2.1 (of_decide_eq_true hp))
    (fun hc hp hstep => (loadTileTag_effect hc hstep).2.2 (of_decide_eq_false hp)) hc hfold with
    ⟨t, hfind, s, hs, he⟩ | ⟨hfind, -⟩
  · exact ⟨t, s, hfind, hs, he⟩
  · obtain ⟨t, ht, hname⟩ := hid
    have := List.find?_eq_none.mp hfind t (List.mem_reverse.mpr ht)
    simp [hname] at this

theorem items_readTileEntity (hi : e.fields.items? ≠ none) :
    (∃ t slots, lastTag tags "Items" = some t ∧ readInventory t = .ok slots ∧
      e.fields.items? = some (some slots)) ∨
      lastTag tags "Items" = none ∧ e.fields.items? = some none := by
  have hcls := cls_readTileEntity h
  obtain ⟨e₀, hinit, hc, hfold⟩ := readTileEntity_start h
  have hcont {f : TileFields} (hf : f.cls = tileClassById id) : f.items? ≠ none := by
    rwa [ne_eq, TileFields.items?_eq_none_iff, hf, ← hcls, ← TileFields.items?_eq_none_iff]
  rcases foldlM_last (I := fun e => e.fields.cls = tileClassById id)
    (p := fun t : Tag => t.name = "Items") (g := fun e => e.fields.items?)
    (S := fun t o => ∃ slots, readInventory t = .ok slots ∧ o = some (some slots))
    (fun hc hstep => cls_loadTileTag hc hstep)
    (fun hc hp hstep => by
      obtain ⟨⟨r, hr, hf⟩, -⟩ := loadTileTag_effect hc hstep
      rw [hf]
      exact hr.items (hcont hc) (of_decide_eq_true hp))
    (fun hc hp hstep => by
      obtain ⟨⟨r, hr, hf⟩, -⟩ := loadTileTag_effect hc hstep
      rw [hf]
      exact hr.itemsKept (of_decide_eq_false hp)) hc hfold with
    ⟨t, hfind, slots, hs, he⟩ | ⟨hfind, he⟩
  · exact .inl ⟨t, slots, hfind, hs, he⟩
  · refine .inr ⟨hfind, he.trans ?_⟩
    have hne := hcont hc
    rw [hinit] at hne ⊢
    cases hk : tileClassById id with
    | chest | furnace => rfl
    | _ => exact absurd (by rw [hk]; rfl) hne

/-- A coordinate of a chest that the tag `n` sets is the one of the compound. -/
theorem coordinate_readTileEntity {n : String} {g : TileFields → Int32}
    (hset : ∀ {f t r}, Effect f t r → f.cls = .chest → t.name = n → intOf t = .ok (g (r.getD f)))
    (hkept : ∀ {f t r}, Effect f t r → t.name ≠ n → g (r.getD f) = g f)
    (hnew : g (TileFields.initial .chest) = -65535) (hchest : e.fields.cls = .chest) :
    pairOf tags n = g e.fields := by
  have hid : tileClassById id = .chest := by rw [← cls_readTileEntity h, hchest]
  obtain ⟨e₀, hinit, hc, hfold⟩ := readTileEntity_start h
  rw [hid] at hinit hc hfold
  unfold pairOf lastTag
  rcases foldlM_last (I := fun e => e.fields.cls = .chest) (p := fun t : Tag => t.name = n)
    (g := fun e => g e.fields) (S := fun t v => intOf t = .ok v)
    (fun hc hstep => cls_loadTileTag hc hstep)
    (fun hc hp hstep => by
      obtain ⟨⟨r, hr, hf⟩, -⟩ := loadTileTag_effect hc hstep
      rw [hf]
      exact hset hr hc (of_decide_eq_true hp))
    (fun hc hp hstep => by
      obtain ⟨⟨r, hr, hf⟩, -⟩ := loadTileTag_effect hc hstep
      rw [hf]
      exact hkept hr (of_decide_eq_false hp)) hc hfold with ⟨t, hfind, hv⟩ | ⟨hfind, hv⟩
  · rw [hfind]
    cases t with
    | int m w => exact Except.ok.inj hv
    | _ => cases hv
  · rw [hfind, hv, hinit, hnew]

theorem pair_readTileEntity (hchest : e.fields.cls = .chest) :
    pairOf tags "pairx" = e.fields.pairx ∧ pairOf tags "pairz" = e.fields.pairz :=
  ⟨coordinate_readTileEntity h (fun hr => hr.pairx) (fun hr => hr.pairxKept) rfl hchest,
    coordinate_readTileEntity h (fun hr => hr.pairz) (fun hr => hr.pairzKept) rfl hchest⟩

end Reading

/-! ## The compounds whose tile entity comes back unchanged -/

def idOf : Option Tag → Option String
  | some (.string _ s) => some s
  | _ => none

/-- The compound has one class of ids, a container in it has items with known tags only, and a chest
that has a second coordinate of a pair has the first one. -/
structure Writable (tags : List Tag) (first last : String) : Prop where
  firstId : idOf (tags.find? fun t => t.name = "id") = some first
  lastId : idOf (lastTag tags "id") = some last
  sameClass : tileClassById last = tileClassById first
  items : tileClassById first = .chest ∨ tileClassById first = .furnace →
    ∃ t, lastTag tags "Items" = some t ∧ PlainItems t
  pair : tileClassById first = .chest → pairOf tags "pairx" ≠ -65535 ∨ pairOf tags "pairz" = -65535

theorem readSingleTileEntity_cases {c : Tag} {e : TileEntity}
    (h : readSingleTileEntity c = .ok (some e)) :
    ∃ name tags t id, c = .compound name tags ∧ tags.find? (fun t => t.name = "id") = some t ∧
      Tag.asString (some t) = .ok id ∧ readTileEntity id tags = .ok e := by
  obtain ⟨tags, htags, h⟩ := bind_eq_ok.mp h
  cases c with
  | compound name ts =>
    obtain rfl := Except.ok.inj htags
    cases hfind : ts.find? fun t => t.name = "id" with
    | none =>
      rw [hfind] at h
      cases h
    | some t =>
      rw [hfind] at h
      obtain ⟨id, hid, h⟩ := bind_eq_ok.mp h
      obtain ⟨e', he, h⟩ := bind_eq_ok.mp h
      obtain rfl := Option.some.inj (Except.ok.inj h)
      exact ⟨name, ts, t, id, rfl, hfind, hid, he⟩
  | _ => cases htags

theorem idOf_eq {t : Tag} {id : String} (h : Tag.asString (some t) = .ok id) : idOf (some t) = some id := by
  cases t with
  | string n s => rw [idOf, Except.ok.inj h]
  | _ => cases h

section Container

variable {id : String} {tags : List Tag} {e : TileEntity} (h : readTileEntity id tags = .ok e)
include h

theorem isContainer_readTileEntity :
    tileClassById id = .chest ∨ tileClassById id = .furnace ↔ e.fields.items? ≠ none := by
  rw [ne_eq, TileFields.items?_eq_none_iff, cls_readTileEntity h]
  tauto

/-- The items of a container are those of its last list of items. -/
theorem slots_readTileEntity {slots : List InventorySlot} (hslots : e.fields.items? = some (some slots)) :
    ∃ t, lastTag tags "Items" = some t ∧ readInventory t = .ok slots := by
  rcases items_readTileEntity h (by simp [hslots]) with ⟨t, slots', hfind, hr, hi⟩ | ⟨-, hi⟩
  · obtain rfl : slots = slots' := by simpa [hslots] using hi
    exact ⟨t, hfind, hr⟩
  · simp [hslots] at hi

theorem small_readTileEntity : e.fields.Small := by
  intro slots hslots
  obtain ⟨t, -, hr⟩ := slots_readTileEntity h hslots
  exact (readInventory_spec hr).1

end Container

theorem writesBack_iff_tags {id : String} {tags : List Tag} {t : Tag} {e : TileEntity}
    (hfind : tags.find? (fun t => t.name = "id") = some t) (hid : Tag.asString (some t) = .ok id)
    (h : readTileEntity id tags = .ok e) : WritesBack e ↔ ∃ first last, Writable tags first last := by
  have hname : t.name = "id" := by simpa using List.find?_some hfind
  obtain ⟨u, last, hlast, hs, heid⟩ := id_readTileEntity h ⟨t, List.mem_of_find?_eq_some hfind, hname⟩
  have hcls := cls_readTileEntity h
  obtain ⟨eid, x, y, z, f⟩ := e
  obtain rfl : eid = some last := heid
  have hids : ∀ {a b}, Writable tags a b → a = id ∧ b = last := by
    intro a b hw
    have ha := hw.firstId
    have hb := hw.lastId
    rw [hfind, idOf_eq hid] at ha
    rw [hlast, idOf_eq hs] at hb
    exact ⟨(Option.some.inj ha).symm, (Option.some.inj hb).symm⟩
  have hcont := isContainer_readTileEntity h
  have hsmall : f.Small := small_readTileEntity h
  rw [writesBack_iff_fields hsmall, kept_eq_iff]
  constructor
  · rintro ⟨hc, hi, hitems, hpair⟩
    refine ⟨id, last, ⟨by rw [hfind, idOf_eq hid], by rw [hlast, idOf_eq hs], hc.symm.trans hcls, ?_, ?_⟩⟩
    · intro hclass
      rcases items_readTileEntity h (hcont.mp hclass) with ⟨t, slots, hfind, hr, hslots⟩ | ⟨-, hnone⟩
      · exact ⟨t, hfind, (readInventory_spec hr).2.mp (hitems slots hslots)⟩
      · exact absurd hnone hi
    · intro hclass
      obtain ⟨hx, hz⟩ := pair_readTileEntity h (hcls.trans hclass)
      rw [hx, hz]
      exact hpair
  · rintro ⟨a, b, hw⟩
    obtain ⟨rfl, rfl⟩ := hids hw
    refine ⟨hcls.trans hw.sameClass.symm, ?_, ?_, ?_⟩
    · intro hnone
      obtain ⟨t, ht, -⟩ := hw.items (hcont.mpr (by simp [hnone]))
      rcases items_readTileEntity h (by simp [hnone]) with ⟨_, _, _, _, hi⟩ | ⟨hfind, -⟩
      · simp [hnone] at hi
      · rw [ht] at hfind
        cases hfind
    · intro slots hslots
      obtain ⟨t, ht, hplain⟩ := hw.items (hcont.mpr (by simp [hslots]))
      obtain ⟨u, hu, hr⟩ := slots_readTileEntity h hslots
      rw [ht] at hu
      obtain rfl := Option.some.inj hu
      exact (readInventory_spec hr).2.mpr hplain
    · by_cases hchest : f.cls = .chest
      · obtain ⟨hx, hz⟩ := pair_readTileEntity h hchest
        rw [← hx, ← hz]
        exact hw.pair (hcls.symm.trans hchest)
      · refine .inr ?_
        cases f with
        | chest => exact absurd rfl hchest
        | _ => rfl

/-- **The tile entities that can be written back unchanged**, by the compound that they were read from. -/
theorem writesBack_iff (c : Tag) (e : TileEntity) (h : readSingleTileEntity c = .ok (some e)) :
    WritesBack e ↔ ∃ name tags first last, c = .compound name tags ∧ Writable tags first last := by
  obtain ⟨name, tags, t, id, rfl, hfind, hid, hread⟩ := readSingleTileEntity_cases h
  rw [writesBack_iff_tags hfind hid hread]
  constructor
  · rintro ⟨first, last, hw⟩
    exact ⟨name, tags, first, last, rfl, hw⟩
  · rintro ⟨_, _, first, last, heq, hw⟩
    cases heq
    exact ⟨first, last, hw⟩

/-- Half of a double chest, with an id in another letter case. -/
def pairedChest : Tag :=
  .compound "" [.int "pairz" 7, .string "id" "cHEst", .int "x" 5, .int "pairx" 6,
    .list "Items" .compound [.compound "" [.byte "Slot" 3, .short "id" 50, .byte "Count" 200]]]

theorem writesBack_pairedChest : ∃ e, readSingleTileEntity pairedChest = .ok (some e) ∧ WritesBack e := by
  have hread : readSingleTileEntity pairedChest =
      .ok (some ⟨some "cHEst", 5, 0, 0, .chest (some [⟨3, ⟨50, 0, 200, []⟩⟩]) 6 7⟩) := rfl
  refine ⟨_, hread, (writesBack_iff pairedChest _ hread).mpr ⟨_, _, "cHEst", "cHEst", rfl, ?_⟩⟩
  refine ⟨rfl, rfl, rfl, fun _ => ⟨_, rfl, ?_⟩, fun _ => .inl (by decide +kernel)⟩
  intro elements helements e he tags htags t ht
  obtain rfl := Except.ok.inj helements
  obtain rfl := List.mem_singleton.mp he
  obtain rfl := Except.ok.inj htags
  simp only [List.mem_cons, List.not_mem_nil, or_false] at ht
  rcases ht with rfl | rfl | rfl <;> simp [Tag.name, slotNames]

/-- A chest without the list of its items. -/
def bareChest : Tag := .compound "" [.string "id" "Chest"]

theorem not_writesBack_bareChest :
    ∃ e, readSingleTileEntity bareChest = .ok (some e) ∧ ¬WritesBack e := by
  refine ⟨⟨some "Chest", 0, 0, 0, .chest none (-65535) (-65535)⟩, rfl, ?_⟩
  rintro ⟨w, hw, -⟩
  have herror : writeTileEntity ⟨some "Chest", 0, 0, 0, .chest none (-65535) (-65535)⟩ =
      .error .nullPointer := rfl
  rw [herror] at hw
  cases hw

end NBTConverter

end WorldToPE
