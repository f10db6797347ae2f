import JpegStorage.Recode.Lossless
import JpegStorage.Recode.Lookup
import JpegStorage.Recode.Reservoir
import JpegStorage.Recode.Counts
import JpegStorage.Recode.Recodejpg
import JpegStorage.Recode.RecodedTwice
import JpegStorage.Recode.FileList
import JpegStorage.Recode.HeaderFormat
import JpegStorage.Recode.HeaderCopy
import JpegStorage.Recode.OutputFile
import JpegStorage.Recode.MarkerSearch
import JpegStorage.Dedup.StoreInvariant
import JpegStorage.Dedup.RestoreStuck
import JpegStorage.Dedup.Threads
import JpegStorage.Dedup.RoundTrip
import JpegStorage.Dedup.RollingHash
import JpegStorage.Dedup.ReadBlocks
import JpegStorage.Dedup.Partition
import JpegStorage.Dedup.Batches
import JpegStorage.Dedup.BatchSave
import JpegStorage.Dedup.FailedFlush
import JpegStorage.Dedup.ReadCache
import JpegStorage.Dedup.Registration
import JpegStorage.Recode.Quota
import JpegStorage.Recode.CodeBuffers
import JpegStorage.Recode.BlockBounds
import JpegStorage.Recode.MalformedTables
import JpegStorage.Dedup.Indices
import JpegStorage.Recode.TableRecord
import JpegStorage.Dedup.LostChunks
import JpegStorage.Dedup.StoredOnce
import JpegStorage.Dedup.Capacity
