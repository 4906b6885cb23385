import Mqlog.MbptreeFloor
import Mqlog.IndexCapacity
import Mqlog.LogLaw
import Mqlog.SegmentReopen
import Mqlog.MbptreeAllocs
import Mqlog.SegmentCrash
import Mqlog.TreeLock
import Mqlog.LogMutex
import Mqlog.MbptreeAtomic
import Mqlog.LogIndex
import Mqlog.TreeLockRace
import Mqlog.SegmentSeal
import Mqlog.SegmentPublish
import Mqlog.SegmentSolo
import Mqlog.LogKill
import Mqlog.SegmentPassed
import Mqlog.LogLife
import Mqlog.LogReturns
import Mqlog.SegmentChecksum
import Mqlog.LogOrder
import Mqlog.LogWalk
import Mqlog.SegmentCommitted
import Mqlog.LogSize
import Mqlog.SegmentPath
import Mqlog.MbptreeBfs
import Mqlog.MbptreeBalance
import Mqlog.MbptreeStable
import Mqlog.MbptreeSafe
