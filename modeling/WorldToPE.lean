import WorldToPE.Lib.JavaInt
import WorldToPE.Lib.JavaArray
import WorldToPE.Lib.Nibble
import WorldToPE.Lib.Store
import WorldToPE.Lib.Run
import WorldToPE.LevelDB.DBKey
import WorldToPE.Geo.Chunk
import WorldToPE.Geo.ChunkManager
import WorldToPE.Geo.CacheInv
import WorldToPE.Geo.BlockMap
import WorldToPE.Geo.Durability
import WorldToPE.Geo.FailedLoad
import WorldToPE.Lib.SeekFile
import WorldToPE.Region.DesktopRegionFile
import WorldToPE.Region.Opening
import WorldToPE.Convert.Converter
import WorldToPE.Convert.Section
import WorldToPE.Convert.ChunkRecord
import WorldToPE.Convert.Region
import WorldToPE.Convert.World
import WorldToPE.Lib.DataStream
import WorldToPE.Nbt.Stream
import WorldToPE.Nbt.RoundTrip
import WorldToPE.Data.Entity
import WorldToPE.Data.EntityStore
import WorldToPE.Data.TileEntity
import WorldToPE.Nbt.Progress
import WorldToPE.LevelDB.ReadEntities
import WorldToPE.LevelDB.WriteEntities
import WorldToPE.Data.Level
import WorldToPE.Editor.EditorActivity
import WorldToPE.LevelDB.SaveOutcome
import WorldToPE.Data.EntityRoundTrip
import WorldToPE.Data.PlayerRoundTrip
import WorldToPE.Data.TileEntityRoundTrip
import WorldToPE.Region.Corrupt
import WorldToPE.Lib.Sectors
import WorldToPE.Region.Write
import WorldToPE.Region.DesktopWrite
import WorldToPE.Region.RegionFile
import WorldToPE.Convert.Undecodable
import WorldToPE.Convert.TagOrder
import WorldToPE.LevelDB.TileEntities
import WorldToPE.Editor.InventorySlots
import WorldToPE.Data.ItemTags
import WorldToPE.Geo.RecordFrame
import WorldToPE.Convert.Positions
import WorldToPE.Convert.Limited
import WorldToPE.Convert.SectionIndex
import WorldToPE.Editor.LoadoutImport
import WorldToPE.Editor.ChestSlots
import WorldToPE.Geo.CuboidRegion
import WorldToPE.Geo.AreaBlockAccess
import WorldToPE.Geo.Edits
import WorldToPE.Geo.GeoUtils
import WorldToPE.Geo.GeoLoops
import WorldToPE.Geo.CountReplace
import WorldToPE.Geo.ManagerArea
import WorldToPE.Geo.Shortcut
import WorldToPE.Geo.WorldReplace
import WorldToPE.Geo.Clipboard
import WorldToPE.Geo.CopyPaste
import WorldToPE.Geo.ClipboardWorld
import WorldToPE.Geo.Builders
import WorldToPE.Geo.Shapes
import WorldToPE.Geo.HollowCuboid
import WorldToPE.Geo.Pyramid
import WorldToPE.Geo.ReportedCount
import WorldToPE.Engine.Crc32c
import WorldToPE.Engine.Log
import WorldToPE.Engine.MemTable
import WorldToPE.Engine.DbRun
import WorldToPE.Engine.Merger
import WorldToPE.Engine.DbScan
import WorldToPE.Engine.Table
import WorldToPE.Engine.VersionSet
