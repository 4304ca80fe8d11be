import RkyvUtils.AlignedBuffer.Amortized
import RkyvUtils.AlignedBuffer.Spare
import RkyvUtils.AlignedBuffer.ArchiveRoundTrip
import RkyvUtils.AlignedBuffer.Extend
import RkyvUtils.AlignedBuffer.GlobalContract
import RkyvUtils.AlignedBuffer.Padding
import RkyvUtils.AlignedBuffer.RoundTrip
import RkyvUtils.AlignedBufferPool.Access
import RkyvUtils.AlignedBufferPool.AllocatorClones
import RkyvUtils.AlignedBufferPool.MaxCapacity
import RkyvUtils.AlignedBufferPool.ScratchOrder
import RkyvUtils.AlignedBufferPool.ScratchPadding
import RkyvUtils.AlignedBufferPool.Drops
import RkyvUtils.AlignedBufferPool.PooledArchive
import RkyvUtils.AlignedBufferPool.RawParts
import RkyvUtils.AlignedBufferPool.Retention
import RkyvUtils.AlignedBufferPool.SharedTypes
import RkyvUtils.AlignedBufferPool.Sharing
import RkyvUtils.AlignedBufferPool.Windows
import RkyvUtils.RkyvOwnedArchive.Archives
