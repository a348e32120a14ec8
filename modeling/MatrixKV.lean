import MatrixKV.ColumnClosureProofs
import MatrixKV.NvmIteratorProofs
import MatrixKV.SubcompactionProofs
import MatrixKV.ColumnFlagProofs
import MatrixKV.NvmRoundTripProofs
import MatrixKV.ConcurrentFlushProofs
import MatrixKV.LogRecoveryProofs
import MatrixKV.RangeFlushProofs
import MatrixKV.DeleteRangeProofs
import MatrixKV.ColumnOutputProofs
import MatrixKV.SizeAccountingProofs
import MatrixKV.PessimisticTryLockProofs
import MatrixKV.LockCountProofs
import MatrixKV.WaitForGraphProofs
import MatrixKV.AtomicGroupProofs
import MatrixKV.WritePreparedProofs
import MatrixKV.MemTableFlushProofs
import MatrixKV.FragmentListProofs
import MatrixKV.ScheduledPurgeProofs
import MatrixKV.LevelCompactionProofs
import MatrixKV.WriteBatchProofs
import MatrixKV.SeparatorProofs
